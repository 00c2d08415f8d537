import NaiveFileSystem.Yfs.Network
import NaiveFileSystem.Yfs.OnDisk

/-!
# The whole system

Any clients with their threads, the lock server with its protocol, and the extent
server with its disk. Whoever has a lock reads the bytes put last by anybody, and
behind a release they are on the disk.
-/

namespace NaiveFileSystem.Yfs

open Extent Cache Transition Program
open LockSystem (ClientId)

section System

variable {ι : Type} [DecidableEq ι]

def Network.Event.record {σ : Type} (event : Network.Event ι σ) (ledger : Ledger) : Ledger :=
  match event.act with
  | some act => ledger.after act
  | none => ledger

omit [DecidableEq ι] in
theorem Sustains.congr {site next : Site ClientId ι Process} {net after : Network ι Process}
    {ledger : Ledger} {act : Act ClientId ι Process}
    (sustains : Sustains net.site after.site ledger act) (mirrors : Mirrors net site)
    (mirrors' : Mirrors after next) : Sustains site next ledger act := by
  obtain ⟨alive, needs⟩ := sustains
  refine ⟨by rw [mirrors'.server]; exact alive, ?_⟩
  cases act with
  | call | leave =>
    simp only [mirrors.jobs, mirrors.server, mirrors.table]
    exact needs
  | start | finish | acquire | release | request | record | handOver => exact needs

omit [DecidableEq ι] in
theorem Mirrors.holding {net : Network ι Process} {disk : Site ClientId ι Process} {eid : Inum} {t : ι}
    {client : ClientId} (mirrors : Mirrors net disk) (holder : disk.holder eid = some t)
    (owner : disk.owner eid = some client) : ⟨client, t, .holding⟩ ∈ (net.locks eid).pool := by
  have provides := mirrors.locks eid
  rw [Site.layer, holder, owner] at provides
  obtain ⟨client', same, member⟩ := provides.holding
  cases same
  exact member

theorem Mirrors.unowned {net : Network ι Process} {disk : Site ClientId ι Process} {eid : Inum}
    (mirrors : Mirrors net disk) (reachable : Reachable network net)
    (free : ∀ entry, (net.locks eid).server = some entry → entry.clientId = "") :
    disk.owner eid = none := by
  have conserved := LockSystem.conserved_of_system (locks_reachable reachable) eid
  refine (mirrors.locks eid).unowned conserved fun client => ?_
  cases server : (net.locks eid).server with
  | none => rfl
  | some entry =>
    simp only [LockSystem.standing, free entry server, client.property.symm, if_false]

end System

end NaiveFileSystem.Yfs

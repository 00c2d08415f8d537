import NaiveFileSystem.Fuse.Mount

/-!
# Reading a directory page by page

The kernel reads a directory in pages, each from the offset of the last record that it
took. While nothing is unlinked in the directory it gets every entry once, in order, those
that are added on the way included.
-/

namespace NaiveFileSystem.Fuse

open Extent Cache Yfs Transition Paging Program

/-- The kernel goes through a directory: where it goes on, and what it has seen. -/
inductive Scan (lib : Library) (limit : ℕ)
    (read : Bytes → Option (((CString × Inum) × ℕ) × Bytes)) (dir : Inum) :
    Mount Contents → ℕ → Entries → Prop
  | opens {state entries} : Reachable (mount lib limit Called Rooted) state →
      state.known dir = some (.dir entries) → Scan lib limit read dir state 0 []
  | other {state event next off seen} : Scan lib limit read dir state off seen →
      Mounts lib limit Called state event next →
      (∀ name reply, event ≠ .serve (.unlink dir name) reply) → next.known dir ≠ none →
      Scan lib limit read dir next off seen
  | page {state next off seen size data taken} : Scan lib limit read dir state off seen →
      Mounts lib limit Called state (.serve (.readdir dir size off) (.buf data)) next →
      taken <+: (direntFormat lib read).entries data → (some : taken ≠ []) →
      Scan lib limit read dir next (taken.getLast some).2 (seen ++ taken.map Prod.fst)

section Scans

variable {lib : Library} {limit : ℕ} {read : Bytes → Option (((CString × Inum) × ℕ) × Bytes)}
  {dir : Inum} {fs : FileSystem} {state : Mount Contents} {off : ℕ} {seen entries : Entries}

theorem Scan.reachable (scan : Scan lib limit read dir state off seen) :
    Reachable (mount lib limit Called Rooted) state := by
  induction scan with
  | opens reachable _ => exact reachable
  | other _ steps _ _ ih | page _ steps _ _ ih => exact ih.extend steps

theorem after_dir {request : Request} {reply : Reply} (here : fs dir = some (.dir entries))
    (fits : request.Fits limit fs) (answers : request.Answers lib fs reply)
    (keeps : ∀ name, request ≠ .unlink dir name) (live : after fs request reply dir ≠ none) :
    ∃ more, after fs request reply dir = some (.dir (entries ++ more)) := by
  have stays : after fs request reply dir = fs dir →
      ∃ more, after fs request reply dir = some (.dir (entries ++ more)) :=
    fun same => ⟨[], by rw [same, here, List.append_nil]⟩
  have file : ∀ {ino}, (∃ content, fs ino = some (.file content)) → dir ≠ ino := by
    rintro ino ⟨content, found⟩ rfl
    cases here.symm.trans found
  have added : ∀ parent name id node, fs id = none → (∃ entries, fs parent = some (.dir entries)) →
      ∃ more, fs.add parent name id node dir = some (.dir (entries ++ more)) := by
    rintro parent name id node fresh ⟨listed, above⟩
    by_cases same : dir = parent
    · subst same
      refine ⟨[(name, id)], ?_⟩
      rw [FileSystem.add, Function.update_self, entries_dir here]
    · have new : dir ≠ id := by
        rintro rfl
        cases fresh.symm.trans here
      refine ⟨[], ?_⟩
      rw [FileSystem.add, Function.update_of_ne same, Function.update_of_ne new, List.append_nil]
      exact here
  cases request with
  | setattr ino size toSet =>
    apply stays
    cases sized : toSet.size with
    | false => simp [after, sized]
    | true =>
      simp only [Request.Fits, sized, if_true] at fits
      simp only [after, sized, if_true]
      exact Function.update_of_ne (file fits.1) _ _
  | write ino buf off => exact stays (Function.update_of_ne (file fits.1) _ _)
  | create parent name | mknod parent name | mkdir parent name =>
    obtain ⟨e, rfl, fresh, _⟩ := answers
    exact added parent name e.ino _ fresh fits.1
  | symlink link parent name =>
    obtain ⟨e, rfl, fresh, _⟩ := answers
    exact added parent name e.ino _ fresh fits.1
  | unlink parent name =>
    apply stays
    have different : dir ≠ parent := by
      rintro rfl
      exact keeps name rfl
    by_cases gone : dir ∈ fs.named parent name
    · exact absurd (drop_of_mem gone different) live
    · exact drop_of_not_mem gone different
  | getattr ino | read ino size off | lookup parent name | readdir ino size off | open_ ino
  | readlink ino | statfs => exact stays rfl

/-- A page is answered from the file system, and leaves it as it was. -/
theorem Mounts.readdir {next : Mount Contents} {size : ℕ} {reply : Reply} (bound : limit < 2 ^ 31)
    (reachable : Reachable (mount lib limit Called Rooted) state)
    (served : Mounts lib limit Called state (.serve (.readdir dir size off) reply) next) :
    (Request.readdir dir size off).Answers lib state.known reply ∧ next.known = state.known := by
  rcases served.known bound reachable with ⟨request, reply, same, _, answers, known⟩ | ⟨_, same, _⟩
  · cases same
    exact ⟨answers, known⟩
  · cases same

/-- A step that unlinks nothing in a directory which stays appends to its entries. -/
theorem Mounts.grows {next : Mount Contents} {event : Event} (bound : limit < 2 ^ 31)
    (reachable : Reachable (mount lib limit Called Rooted) state)
    (steps : Mounts lib limit Called state event next)
    (keeps : ∀ name reply, event ≠ .serve (.unlink dir name) reply) (live : next.known dir ≠ none)
    (here : state.known dir = some (.dir entries)) :
    ∃ more, next.known dir = some (.dir (entries ++ more)) := by
  rcases steps.known bound reachable with ⟨request, reply, rfl, fits, answers, same⟩ | ⟨eid, rfl, same⟩
  · rw [same] at live ⊢
    exact after_dir here fits answers (fun name named => keeps name reply (by rw [named])) live
  · exact ⟨[], by rw [same, here, List.append_nil]⟩

theorem Scan.directory (bound : limit < 2 ^ 31) (scan : Scan lib limit read dir state off seen) :
    ∃ entries, state.known dir = some (.dir entries) := by
  induction scan with
  | opens _ here => exact ⟨_, here⟩
  | other earlier steps keeps live ih =>
    obtain ⟨entries, here⟩ := ih
    obtain ⟨more, there⟩ := steps.grows bound earlier.reachable keeps live here
    exact ⟨_, there⟩
  | page earlier steps _ _ ih =>
    obtain ⟨entries, here⟩ := ih
    obtain ⟨_, same⟩ := steps.readdir bound earlier.reachable
    exact ⟨entries, by rw [same, here]⟩

theorem Scan.front {readable : CString × Inum → ℕ → Prop} (bound : limit < 2 ^ 31)
    (lawful : (direntFormat lib read).Lawful readable)
    (scan : Scan lib limit read dir state off seen) (here : state.known dir = some (.dir entries))
    (all : ∀ entry ∈ (direntFormat lib read).marks 0 entries, readable entry.1 entry.2) :
    ∃ index, seen = entries.take index ∧
      off = (direntFormat lib read).extent (entries.take index) := by
  induction scan generalizing entries with
  | opens _ _ => exact ⟨0, by simp, by simp⟩
  | @other _ _ _ _ _ earlier steps keeps live ih =>
    obtain ⟨before, there⟩ := earlier.directory bound
    obtain ⟨more, grown⟩ := steps.grows bound earlier.reachable keeps live there
    cases here.symm.trans grown
    rw [Format.marks_append] at all
    obtain ⟨index, rfl, rfl⟩ := ih there fun entry inside => all entry (List.mem_append_left _ inside)
    have same : before.take index = (before ++ more).take (min index before.length) := by
      rw [List.take_append_of_le_length (Nat.min_le_right _ _), List.take_eq_take_iff]
      omega
    exact ⟨_, same, congrArg _ same⟩
  | @page _ _ _ _ size _ taken earlier steps front some ih =>
    obtain ⟨answers, same⟩ := steps.readdir bound earlier.reachable
    rw [same] at here
    obtain ⟨index, rfl, rfl⟩ := ih here all
    simp only [Request.Answers, here, page_eq lawful] at answers
    cases answers
    obtain ⟨more, names, last⟩ := lawful.page_taken all front some
    refine ⟨index + more, ?_, last⟩
    rw [names, List.take_add]

/-- The kernel has seen the first entries of the directory, each once; an empty page tells
it that these are all, and a page that has room for any record brings it further. -/
theorem readdir_exact {readable : CString × Inum → ℕ → Prop} (bound : limit < 2 ^ 31)
    (lawful : (direntFormat lib read).Lawful readable)
    (scan : Scan lib limit read dir state off seen) (here : state.known dir = some (.dir entries))
    (all : ∀ entry ∈ (direntFormat lib read).marks 0 entries, readable entry.1 entry.2) :
    seen <+: entries ∧ ∀ size reply next,
      Mounts lib limit Called state (.serve (.readdir dir size off) reply) next →
      ∃ data, reply = .buf data ∧ (data = [] → 0 < size → seen = entries) ∧
        (seen ≠ entries → (∀ entry ∈ entries, lib.direntSize entry.1.bytes.length ≤ size) →
          (direntFormat lib read).entries data ≠ []) := by
  obtain ⟨index, rfl, rfl⟩ := scan.front bound lawful here all
  refine ⟨List.take_prefix index entries, fun size reply next steps => ?_⟩
  obtain ⟨answers, _⟩ := steps.readdir bound scan.reachable
  simp only [Request.Answers, here, page_eq lawful] at answers
  refine ⟨_, answers, fun empty positive => ?_, fun missing fits => ?_⟩
  · exact List.take_of_length_le (lawful.page_empty positive empty)
  · have inside : index < entries.length := by
      by_contra behind
      exact missing (List.take_of_length_le (Nat.not_lt.mp behind))
    exact lawful.page_progress all (List.getElem?_eq_getElem inside)
      (fits _ (List.getElem_mem inside))

end Scans

/-- Two files are made while the root is open, which is then read in pages of 40 bytes. -/
theorem scan_created : ∃ (state page next : Mount Contents) (one two : CString) (reply other : Reply),
    Scan packed 100 readPacked 1 state 0 [] ∧ one.bytes = [97] ∧ two.bytes = [98] ∧
      state.known 1 = some (.dir [(one, 2), (two, 3)]) ∧
      Mounts packed 100 Called state (.serve (.readdir 1 40 0) reply) page ∧
      Mounts packed 100 Called page (.serve (.readdir 1 40 32) other) next := by
  let env : Ambient := ⟨0, ⟨0, 0, 0, 0, 0⟩⟩
  let vars : Locals := ⟨⟨⟨0, 0, 0, 0, 0⟩, 0⟩, 0, ⟨0, 0, .cleared 0, 0, 0⟩⟩
  have begins : Reachable (mount packed 100 Called Rooted) _ := ⟨[], .start
    (show (mount packed 100 Called Rooted).init ⟨(fun _ => none, fun id => if id = 1 then
      some ⟨.T_DIR, []⟩ else none), .empty⟩ from ⟨rfl, fun _ none => (by cases none), rfl⟩)⟩
  have opened : Scan packed 100 readPacked 1 _ 0 [] := .opens begins rfl
  have made := opened.other (.serve vars
    (show Request.Fits 100 _ (.create 1 ⟨[97], by decide⟩) from ⟨⟨[], rfl⟩, by decide⟩)
    (runs_of_passes (called_plain env 2) rfl)) (fun _ _ same => by cases same)
    (Option.some_ne_none _)
  have both := made.other (.serve vars
    (show Request.Fits 100 _ (.create 1 ⟨[98], by decide⟩) from ⟨⟨_, rfl⟩, by decide⟩)
    (runs_of_passes (called_plain env 3) rfl)) (fun _ _ same => by cases same)
    (Option.some_ne_none _)
  exact ⟨_, _, _, _, _, _, _, both, rfl, rfl, rfl, .serve vars (Option.some_ne_none _)
    (runs_of_passes (called_plain env 3) rfl), .serve vars (Option.some_ne_none _)
    (runs_of_passes (called_plain env 3) rfl)⟩

theorem readdir_exact_root : ∃ (one two : CString) (state : Mount Contents) (off : ℕ),
    one.bytes = [97] ∧ two.bytes = [98] ∧
      Scan packed 100 readPacked 1 state off [(one, 2), (two, 3)] := by
  obtain ⟨state, page, next, one, two, reply, other, made, first, second, here, served, again⟩ :=
    scan_created
  have readable : ∀ entry ∈ (direntFormat packed readPacked).marks 0 [(one, (2 : Inum)), (two, 3)],
      entry.1.1.bytes.length < 256 ^ 8 ∧ entry.2 < 256 ^ 8 := by
    simp [Paging.Format.marks, direntFormat, packed, packedSize, first, second]
  have room : ∀ entry ∈ [(one, (2 : Inum)), (two, 3)], packed.direntSize entry.1.bytes.length ≤ 40 := by
    simp [packed, packedSize, first, second]
  obtain ⟨_, pages⟩ := readdir_exact (by decide) lawful_packed made here readable
  obtain ⟨data, rfl, _, more⟩ := pages 40 _ _ served
  have some := more (by simp) room
  have paged := made.page served List.prefix_rfl some
  have there := (congrFun (served.readdir (by decide) made.reachable).2 1).trans here
  obtain ⟨index, seen, behind⟩ := paged.front (by decide) lawful_packed there readable
  rw [seen, behind] at paged
  obtain _ | _ | index := index
  · exact absurd seen (by simpa using some)
  · have offset : (direntFormat packed readPacked).extent [(one, (2 : Inum))] = 32 := by
      simp [direntFormat, packed, packedSize, first]
    simp only [List.take_succ_cons, List.take_zero, offset] at paged
    obtain ⟨_, pages⟩ := readdir_exact (by decide) lawful_packed paged there readable
    obtain ⟨data', rfl, _, more⟩ := pages 40 _ _ again
    have some' := more (by simp) room
    have whole := paged.page again List.prefix_rfl some'
    have still := (congrFun (again.readdir (by decide) paged.reachable).2 1).trans there
    obtain ⟨index, seen, _⟩ := whole.front (by decide) lawful_packed still readable
    rw [seen] at whole
    obtain _ | _ | index := index
    · simp at seen
    · exact absurd seen (by simpa using some')
    · exact ⟨one, two, next, _, first, second, by simpa using whole⟩
  · exact ⟨one, two, page, _, first, second, by simpa using paged⟩

end NaiveFileSystem.Fuse

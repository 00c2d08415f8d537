import NaiveFileSystem.Lock.History
import NaiveFileSystem.Lock.Tenure
import NaiveFileSystem.Lock.Plain
import NaiveFileSystem.Rpc.Handle
import NaiveFileSystem.Extent.Region
import NaiveFileSystem.Extent.Dead
import NaiveFileSystem.Cache.Attributes
import NaiveFileSystem.Cache.Transparency
import NaiveFileSystem.Cache.WriteBack
import NaiveFileSystem.Cache.Modifications
import NaiveFileSystem.Cache.Provenance
import NaiveFileSystem.Yfs.Bytes
import NaiveFileSystem.Yfs.Directory
import NaiveFileSystem.Yfs.Attributes
import NaiveFileSystem.Yfs.Failures
import NaiveFileSystem.Yfs.Dirty
import NaiveFileSystem.Yfs.Site
import NaiveFileSystem.Yfs.Joining
import NaiveFileSystem.Yfs.Links
import NaiveFileSystem.Yfs.Tree
import NaiveFileSystem.Yfs.Progress
import NaiveFileSystem.Yfs.Deployed
import NaiveFileSystem.Fuse.Scan
import NaiveFileSystem.Fuse.Machine
import NaiveFileSystem.Fuse.Unflushed
import NaiveFileSystem.Yfs.Atomic
import NaiveFileSystem.Yfs.Shelf

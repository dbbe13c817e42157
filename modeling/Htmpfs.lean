import Htmpfs.Library.Program
import Htmpfs.Library.Runs
import Htmpfs.Library.IdPool
import Htmpfs.Library.LittleEndian
import Htmpfs.Library.Blocks
import Htmpfs.Library.LabelledPaths
import Htmpfs.Library.Simulation
import Htmpfs.Library.PathTree
import Htmpfs.Library.Commuting
import Htmpfs.Library.BlockArray
import Htmpfs.Types
import Htmpfs.Buffer
import Htmpfs.Inode
import Htmpfs.Path
import Htmpfs.DirectoryResolver
import Htmpfs.InodeSmi
import Htmpfs.Fuse
import Htmpfs.BlockOwnership
import Htmpfs.BlockSpec
import Htmpfs.Volumes
import Htmpfs.View
import Htmpfs.Resolve
import Htmpfs.PathNames
import Htmpfs.Refinement
import Htmpfs.Operations
import Htmpfs.Links
import Htmpfs.DirectoryTable
import Htmpfs.Sound
import Htmpfs.Rename
import Htmpfs.Callbacks
import Htmpfs.DoRename
import Htmpfs.SoundRename
import Htmpfs.Frames
import Htmpfs.Runs
import Htmpfs.Mounted
import Htmpfs.Accounting
import Htmpfs.Snapshots
import Htmpfs.Tables
import Htmpfs.Names
import Htmpfs.Pwrite
import Htmpfs.Listing
import Htmpfs.Overflow
import Htmpfs.InodeRuns
import Htmpfs.FileVersions
import Htmpfs.InodeData
import Htmpfs.BlockCounts
import Htmpfs.NewNames
import Htmpfs.Resizes
import Htmpfs.Symlinks
import Htmpfs.Restores
import Htmpfs.Errnos
import Htmpfs.RemoveByPath
import Htmpfs.MkdirRmdir
import Htmpfs.Exports
import Htmpfs.Ways
import Htmpfs.Moves
import Htmpfs.Renamed
import Htmpfs.Walkers
import Htmpfs.LiveTree
import Htmpfs.FreeIds
import Htmpfs.PathCanonical
import Htmpfs.BlockDevice
import Htmpfs.Bitmap
import Htmpfs.FailedCalls
import Htmpfs.Attributes
import Htmpfs.Orphans
import Htmpfs.Content
import Htmpfs.Actions
import Htmpfs.Asks
import Htmpfs.Refusals
import Htmpfs.Answers
import Htmpfs.Departures
import Htmpfs.Readers
import Htmpfs.Traces
import Htmpfs.Observations
import Htmpfs.Independence
import Htmpfs.ReadBack
import Htmpfs.DeviceBlocks

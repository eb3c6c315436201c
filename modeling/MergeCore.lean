import MergeCore.Differ.Model
import MergeCore.Differ.EditGraph
import MergeCore.Differ.Forward
import MergeCore.Differ.Script
import MergeCore.Differ.Backtrack
import MergeCore.Differ.Correct
import MergeCore.Diff3.Model
import MergeCore.Diff3.Tiling
import MergeCore.Diff3.Lines
import MergeCore.Diff3.Chunk
import MergeCore.Diff3.Laws
import MergeCore.Walker.Model
import MergeCore.Walker.CommonParents
import MergeCore.Walker.Termination
import MergeCore.Walker.Heap
import MergeCore.Worktree.State
import MergeCore.Worktree.Merge
import MergeCore.Worktree.Frame
import MergeCore.Worktree.Markers
import MergeCore.Worktree.TempFiles
import MergeCore.Worktree.Termination
import MergeCore.Worktree.BlobCache
import MergeCore.Mysqlfs.Storage
import MergeCore.Mysqlfs.ParentLinks
import MergeCore.Mysqlfs.Handles
import MergeCore.Mysqlfs.Reference
import MergeCore.Mysqlfs.Keys
import MergeCore.Worktree.BuildTree
import MergeCore.Worktree.CleanPaths
import MergeCore.Mysqlfs.Filesystem
import MergeCore.Mysqlfs.RoundTrips
import MergeCore.Worktree.TreeReadBack
import MergeCore.Worktree.Stages
import MergeCore.Worktree.History

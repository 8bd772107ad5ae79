import Badger.Manifest.Basic
import Badger.Manifest.Invariant
import Badger.Manifest.Wire
import Badger.Manifest.Replay
import Badger.Manifest.File
import Badger.Manifest.Log
import Badger.Manifest.Durability
import Badger.Skl.Node
import Badger.Skl.Levels
import Badger.Skl.FindNear
import Badger.Skl.Put
import Badger.Skl.Frame
import Badger.Skl.Concurrent
import Badger.Skl.Invariant
import Badger.Skl.Splice
import Badger.Skl.FindLast
import Badger.Skl.Reads
import Badger.Skl.Towers
import Badger.Skl.Get
import Badger.Skl.Durable
import Badger.Skl.Sequential
import Badger.Skl.Values
import Badger.Skl.Ref
import Badger.Skl.Readers
import Badger.Skl.Progress
import Badger.Skl.LockFree
import Badger.Skl.WaitFree

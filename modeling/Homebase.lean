import Homebase.Properties.History
import Homebase.Properties.Log
import Homebase.Properties.Unlease
import Homebase.Properties.Coordination
import Homebase.Properties.FirstCommitter
import Homebase.Properties.Policy
import Homebase.Properties.ReaderPool
import Homebase.Properties.Columns
import Homebase.Properties.Incremental
import Homebase.Properties.Overlay
import Homebase.Properties.RowEvents
import Homebase.Properties.Manifest
import Homebase.Properties.Oplog
import Homebase.Properties.Keys
import Homebase.Properties.Checksum
import Homebase.Properties.Listing
import Homebase.Properties.WallClock
import Homebase.Properties.Footprint
import Homebase.Properties.Rowid
import Homebase.Properties.Views
import Homebase.Properties.Cipher
import Homebase.Properties.Push
import Homebase.Properties.Scans
import Homebase.Properties.Targets
import Homebase.Properties.Durability

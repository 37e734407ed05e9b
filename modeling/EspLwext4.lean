import EspLwext4.Extent.Bisect
import EspLwext4.Extent.Successor
import EspLwext4.Extent.Cutting
import EspLwext4.Extent.Borrowed
import EspLwext4.Extent.Progress
import EspLwext4.Extent.Runs
import EspLwext4.Lib.Coupled
import EspLwext4.Port.LastError
import EspLwext4.Port.Mounts
import EspLwext4.Port.Inodes
import EspLwext4.Port.Seeks
import EspLwext4.Port.Resize
import EspLwext4.Port.Components
import EspLwext4.Port.Cursor
import EspLwext4.Port.Renaming
import EspLwext4.Port.Routing
import EspLwext4.Port.SdmmcTransfers
import EspLwext4.Port.Contention
import EspLwext4.Port.Formatted
import EspLwext4.Port.ReadOnly
import EspLwext4.Extent.Freed

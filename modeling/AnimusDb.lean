import AnimusDb.CatalogCeiling
import AnimusDb.CatalogEngine
import AnimusDb.CatalogVersions
import AnimusDb.EncryptedDisk
import AnimusDb.GroupElection
import AnimusDb.GroupPromises
import AnimusDb.GroupSafety
import AnimusDb.ItemSortKey
import AnimusDb.ItemIndex
import AnimusDb.ItemRoundTrip
import AnimusDb.ItemWire
import AnimusDb.ItemUpdateFrame
import AnimusDb.LsmWalDecode
import AnimusDb.LsmPaired
import AnimusDb.LsmQuiesce
import AnimusDb.PlacementChoice
import AnimusDb.SigningDates
import AnimusDb.SystemKeyspace
import AnimusDb.TabletClock
import AnimusDb.TabletImage
import AnimusDb.TabletRegions
import AnimusDb.TabletRetry
import AnimusDb.TabletSplit
import AnimusDb.TabletTxns

import RagRat.TableSync.Unbroken
import RagRat.EntrySync.Throttle
import RagRat.Account.Share
import RagRat.Clones.TextCheck
import RagRat.Clones.Upkeep
import RagRat.ControlV2.Ancestry
import RagRat.ControlV2.Views
import RagRat.Account.Branch
import RagRat.Content.LamportClamp
import RagRat.TableSync.Compaction
import RagRat.Secrets.Incarnation
import RagRat.Account.PreVerify
import RagRat.Memory.Publication
import RagRat.Account.LastOwner
import RagRat.Account.DepthMemo

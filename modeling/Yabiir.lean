import Yabiir.Damaged
import Yabiir.Appends
import Yabiir.HintsMatch
import Yabiir.HintsCut
import Yabiir.FileNames
import Yabiir.ShortReads
import Yabiir.Recovered
import Yabiir.GroupCommit
import Yabiir.Beside
import Yabiir.Newest
import Yabiir.Compacted
import Yabiir.Answers
import Yabiir.Atomic
import Yabiir.Crashed
import Yabiir.LogOrder
import Yabiir.Invariant.Synced

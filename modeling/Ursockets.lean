import Ursockets.Recovery
import Ursockets.BitstreamAppend
import Ursockets.Newt
import Ursockets.CueTest
import Ursockets.MarsReplay
import Ursockets.LoomJam
import Ursockets.LssTransceive
import Ursockets.HttpHeaders
import Ursockets.EyreReplay
import Ursockets.SocketWatch
import Ursockets.IrisSocket
import Ursockets.DiskRun
import Ursockets.CttpRun
import Ursockets.EpochRun
import Ursockets.AutoQueue
import Ursockets.LordRun
import Ursockets.LordBail
import Ursockets.NostrillUser
import Ursockets.NostrillAnswer
import Ursockets.NostrillRequests
import Ursockets.NostrillOrder
import Ursockets.NostrillVerify
import Ursockets.NostrillForestRun
import Ursockets.BitstreamBounds
import Ursockets.Nock
import Ursockets.CueXeno
import Ursockets.HashtableCache
import Ursockets.NostrJson
import Ursockets.BytestreamBits
import Ursockets.AmesHear
import Ursockets.MesaTable
import Ursockets.MesaPages
import Ursockets.MesaInside
import Ursockets.Decimal
import Ursockets.Mnemonyms
import Ursockets.Imprison
import Ursockets.EyreTokens
import Ursockets.EyreRange
import Ursockets.EyreLoad
import Ursockets.Trees
import Ursockets.Ob

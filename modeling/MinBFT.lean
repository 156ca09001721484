import MinBFT.Agreement
import MinBFT.Applying
import MinBFT.Attending
import MinBFT.CachedImages
import MinBFT.Capturing
import MinBFT.CatchingUp
import MinBFT.Configuration
import MinBFT.CrashFaults
import MinBFT.Decoding
import MinBFT.ExactCounting
import MinBFT.MessageLog
import MinBFT.OwnHandling
import MinBFT.Process
import MinBFT.Requesting
import MinBFT.Sequencing
import MinBFT.Service
import MinBFT.Settling
import MinBFT.SimpleLedger
import MinBFT.TestNetwork
import MinBFT.Unambiguous
import MinBFT.ViewLeases
import MinBFT.Yielding

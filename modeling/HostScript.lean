import HostScript.Host.Record
import HostScript.Main
import HostScript.Proofs.ArenaGenerations
import HostScript.Proofs.ArenaLedger
import HostScript.Proofs.TypedSessions
import HostScript.Proofs.BlamedTexts
import HostScript.Proofs.LineByLine
import HostScript.Proofs.MalformedTokens
import HostScript.Proofs.HostFailures
import HostScript.Proofs.MethodRedeclaration
import HostScript.Proofs.FreedFrames
import HostScript.Proofs.CallLimit
import HostScript.Proofs.OwnText
import HostScript.Proofs.PrintedIntegers
import HostScript.Proofs.RepeatedConversion
import HostScript.Proofs.ScriptEquality
import HostScript.Proofs.QuotedLiterals
import HostScript.Proofs.TypeWalks

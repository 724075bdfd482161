import Qcg.Contract.NumberTokens
import Qcg.State.Prompts
import Qcg.Engine.Elapsed
import Qcg.Engine.CheckpointAccounts
import Qcg.Engine.ResumeInputs
import Qcg.Engine.ResourcePins
import Qcg.Journal.Crash
import Qcg.Service.Interaction
import Qcg.Service.TruncationExact
import Qcg.Service.ForkWorkspace
import Qcg.Journal.EventCount
import Qcg.Service.ResumeCursor
import Qcg.Agent.AskUser
import Qcg.Engine.LlmAttempts
import Qcg.Engine.LlmStream
import Qcg.Engine.LlmTextGate
import Qcg.Contract.ExprPrint
import Qcg.Engine.Progress
import Qcg.Engine.Rounds
import Qcg.Engine.Artifacts
import Qcg.Service.PackageCopy

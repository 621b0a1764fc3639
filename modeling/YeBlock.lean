import YeBlock.Crypto.HybridKem
import YeBlock.Lib.Merging
import YeBlock.Node.AdmissionRuns
import YeBlock.Node.CompositionRuntime
import YeBlock.Node.ReceiptAuthenticity
import YeBlock.Node.SigningPreimage
import YeBlock.Protocol.ChainAccuracy
import YeBlock.Protocol.ExactWaterfall
import YeBlock.Protocol.FailedSteps
import YeBlock.Protocol.FairSplits
import YeBlock.Protocol.FeeAccuracy
import YeBlock.Protocol.FeeAvoidance
import YeBlock.Protocol.HostingSplit
import YeBlock.Protocol.Lineage
import YeBlock.Protocol.MeterError
import YeBlock.Protocol.MeterIndependence
import YeBlock.Protocol.MonotonePayouts
import YeBlock.Protocol.Newcomers
import YeBlock.Protocol.Ownership
import YeBlock.Protocol.RailAgents
import YeBlock.Protocol.RailBounds
import YeBlock.Protocol.RailLedger
import YeBlock.Protocol.RailOrder
import YeBlock.Protocol.RailPolicies
import YeBlock.Protocol.RailRetries
import YeBlock.Protocol.RepeatedRevenue
import YeBlock.Protocol.SecurityLevers
import YeBlock.Protocol.StepCollusion
import YeBlock.Protocol.StreamSettlement
import YeBlock.Protocol.UnitsOfAccount
import YeBlock.Protocol.VerificationGame
import YeBlock.Protocol.Withholding

import GraphLowering.Lower.Table
import GraphLowering.Main
import GraphLowering.Proofs.FunctionFile.References
import GraphLowering.Proofs.FunctionFile.WellFounded
import GraphLowering.Proofs.Graph.Frame
import GraphLowering.Proofs.Lower.Crew
import GraphLowering.Proofs.Subtarget.ReadBack
import GraphLowering.Proofs.Subtarget.Registers
import GraphLowering.Proofs.Timing.Statistics
import GraphLowering.Proofs.Usim.AddressForms
import GraphLowering.Proofs.Usim.AllOrNothing
import GraphLowering.Proofs.Usim.CallFormation
import GraphLowering.Proofs.Usim.CallInsertion
import GraphLowering.Proofs.Usim.CombiningMeaning
import GraphLowering.Proofs.Usim.ConstantOutcomes
import GraphLowering.Proofs.Usim.DeadNodes
import GraphLowering.Proofs.Usim.ExpansionInStep
import GraphLowering.Proofs.Usim.PastLegalization
import GraphLowering.Proofs.Usim.SelectEntries
import GraphLowering.Proofs.Usim.Sequenced
import GraphLowering.Proofs.Usim.TypesKept
import GraphLowering.Proofs.Usim.WideMeaning

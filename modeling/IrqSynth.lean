import IrqSynth.Datasheet
import IrqSynth.Design
import IrqSynth.EventCell
import IrqSynth.Bitmap
import IrqSynth.Checked
import IrqSynth.InPlace
import IrqSynth.Elaboration
import IrqSynth.Proofs.Settling
import IrqSynth.Proofs.SettleAnswer
import IrqSynth.Proofs.UniqueSolution
import IrqSynth.Proofs.RestLevels
import IrqSynth.Proofs.GovernedNets
import IrqSynth.Proofs.IndependentFragments
import IrqSynth.Proofs.Net
import IrqSynth.Proofs.Wiring
import IrqSynth.Proofs.Refinement
import IrqSynth.Proofs.Construction
import IrqSynth.Proofs.Elaboration
import IrqSynth.Proofs.Refusals
import IrqSynth.Proofs.ReferenceMachine
import IrqSynth.Proofs.BankAccess
import IrqSynth.Proofs.BankRun
import IrqSynth.Proofs.EventHistory
import IrqSynth.Proofs.Exclusive
import IrqSynth.Proofs.NetOwners
import IrqSynth.Proofs.DrivenNets
import IrqSynth.Proofs.AttachHistory
import IrqSynth.Proofs.Renaming
import IrqSynth.Proofs.AttachOrder
import IrqSynth.Proofs.StableLayout
import IrqSynth.Proofs.FieldNames
import IrqSynth.Proofs.FieldLookup
import IrqSynth.Proofs.SharedInterrupt
import IrqSynth.Proofs.SourceAlone
import IrqSynth.Proofs.EnableMask
import IrqSynth.Proofs.FirmwareViews
import IrqSynth.Proofs.CheckedDesign
import IrqSynth.Proofs.CheckedBank
import IrqSynth.Proofs.WriteEdge
import IrqSynth.Proofs.MemoryMap
import IrqSynth.Proofs.ServiceLoop
import IrqSynth.Proofs.LastAssignment
import IrqSynth.Proofs.StorageRegister
import IrqSynth.Proofs.WordPacking
import IrqSynth.Proofs.RepeatedParts

import AvmSandbox.Address.Text
import AvmSandbox.Codec.MachineDecode
import AvmSandbox.Listing
import AvmSandbox.Method.Description
import AvmSandbox.Sandbox.Scope
import AvmSandbox.Settings.Document
import AvmSandbox.Transaction.InnerForm
import AvmSandbox.Proofs.Codec.IndexRoundTrip
import AvmSandbox.Proofs.Codec.Exactness
import AvmSandbox.Proofs.Chain.Submission
import AvmSandbox.Proofs.Sandbox.Creation
import AvmSandbox.Proofs.Sandbox.Scopes
import AvmSandbox.Proofs.Ledger.BoxMaps
import AvmSandbox.Proofs.Ledger.Reachable
import AvmSandbox.Proofs.Method.Arguments
import AvmSandbox.Proofs.Codec.Operations
import AvmSandbox.Proofs.Codec.AccessLaws
import AvmSandbox.Proofs.Codec.Neutral
import AvmSandbox.Proofs.Codec.ExactLength
import AvmSandbox.Proofs.Codec.MachineLength
import AvmSandbox.Proofs.Codec.MachineRow
import AvmSandbox.Proofs.Codec.MachineHeads
import AvmSandbox.Proofs.Codec.MachineDecode
import AvmSandbox.Proofs.Chain.Groups
import AvmSandbox.Proofs.Chain.Composition
import AvmSandbox.Proofs.Chain.ClearState
import AvmSandbox.Proofs.Chain.SingleSubmission
import AvmSandbox.Proofs.Codec.Shape
import AvmSandbox.Proofs.Descriptor.Reading
import AvmSandbox.Proofs.Descriptor.Padding
import AvmSandbox.Proofs.Descriptor.Permitted
import AvmSandbox.Proofs.Method.Signature
import AvmSandbox.Proofs.Ledger.Logs
import AvmSandbox.Proofs.Method.Admission
import AvmSandbox.Proofs.Sandbox.LogRecords
import AvmSandbox.Proofs.Sandbox.Reset
import AvmSandbox.Proofs.Sandbox.Exports
import AvmSandbox.Proofs.Transaction.Lookups
import AvmSandbox.Proofs.Transaction.CallLog
import AvmSandbox.Proofs.Transaction.Assignments
import AvmSandbox.Proofs.Method.Composition
import AvmSandbox.Proofs.Ledger.StateHistory
import AvmSandbox.Proofs.Method.TransactionArgs
import AvmSandbox.Proofs.Method.FailedEncoding

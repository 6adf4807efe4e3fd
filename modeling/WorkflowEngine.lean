import WorkflowEngine.Bus
import WorkflowEngine.Context
import WorkflowEngine.Main
import WorkflowEngine.Proofs.Run.Ending
import WorkflowEngine.Proofs.Run.Masking
import WorkflowEngine.Proofs.Task.Cancellation
import WorkflowEngine.Proofs.Run.Cancellation
import WorkflowEngine.Proofs.Task.Schedule
import WorkflowEngine.Proofs.Task.Sequence
import WorkflowEngine.Proofs.Workflow.Resolution
import WorkflowEngine.Proofs.Run.Scope
import WorkflowEngine.Proofs.Workflow.Replacement
import WorkflowEngine.Proofs.Workflow.RoundTrip
import WorkflowEngine.Proofs.Workflow.Duplicates
import WorkflowEngine.Proofs.Task.Account
import WorkflowEngine.Proofs.Run.Boundary
import WorkflowEngine.Proofs.Run.Finality
import WorkflowEngine.Proofs.Workflow.Lineage
import WorkflowEngine.Proofs.Run.Gate
import WorkflowEngine.Proofs.Run.Approval
import WorkflowEngine.Proofs.Run.Pool
import WorkflowEngine.Proofs.Task.Termination
import WorkflowEngine.Proofs.Workflow.Defects
import WorkflowEngine.Proofs.Run.Reporting
import WorkflowEngine.Proofs.Run.Texts
import WorkflowEngine.Proofs.Run.Budget
import WorkflowEngine.Proofs.Folder
import WorkflowEngine.Proofs.Bus.Account
import WorkflowEngine.Proofs.Expr.Evaluation
import WorkflowEngine.Proofs.Template.Formula
import WorkflowEngine.Proofs.Template.Condition
import WorkflowEngine.Proofs.Template.Grouping
import WorkflowEngine.Proofs.Data.Calendar
import WorkflowEngine.Proofs.Data.Digits
import WorkflowEngine.Proofs.Data.Instants
import WorkflowEngine.Proofs.Data.Ids
import WorkflowEngine.Proofs.Data.Values
import WorkflowEngine.Proofs.Document.RoundTrip
import WorkflowEngine.Proofs.Record.RoundTrip
import WorkflowEngine.Proofs.Run.Arrival
import WorkflowEngine.Proofs.Run.Continuation
import WorkflowEngine.Proofs.Run.Progress
import WorkflowEngine.Proofs.Workflow.Report
import WorkflowEngine.Proofs.Workflow.Order
import WorkflowEngine.Proofs.Task.Above
import WorkflowEngine.Proofs.Task.Iterations
import WorkflowEngine.Proofs.Workflow.Outline
import WorkflowEngine.Proofs.Template.Operators
import WorkflowEngine.Proofs.Template.Placeholder
import WorkflowEngine.Proofs.Template.Interpolation
import WorkflowEngine.Proofs.Run.Attempts
import WorkflowEngine.Proofs.Run.Counters
import WorkflowEngine.Proofs.Run.Refusal
import WorkflowEngine.Proofs.Variables
import WorkflowEngine.Proofs.Run.Branch
import WorkflowEngine.Proofs.Store.Operations
import WorkflowEngine.Proofs.Simulation.Approval
import WorkflowEngine.Proofs.Workflow.IssuePaths

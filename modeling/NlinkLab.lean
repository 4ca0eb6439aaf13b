import NlinkLab.Diff
import NlinkLab.Api.Frame
import NlinkLab.Dns
import NlinkLab.Running.Save
import NlinkLab.Deploy.Op.Diff
import NlinkLab.Deploy.Plan.Ops
import NlinkLab.Deploy.Plan
import NlinkLab.Deploy.Plan.Depends
import NlinkLab.Deploy.Plan.Forwarding
import NlinkLab.Deploy.Plan.Gateways
import NlinkLab.Deploy.Plan.Pairs
import NlinkLab.Deploy.Plan.Peerings
import NlinkLab.Validator
import NlinkLab.Lock
import NlinkLab.Deploy.Ctx
import NlinkLab.Deploy.Namespaces
import NlinkLab.Deploy.Reattach
import NlinkLab.Deploy.Apply
import NlinkLab.Deploy.InOrder
import NlinkLab.Events.Append
import NlinkLab.Events.Read
import NlinkLab.Labd.Queue
import NlinkLab.Labd.Follow
import NlinkLab.Labd.Server
import NlinkLab.Labd.Hub
import NlinkLab.HostRegistry
import NlinkLab.Client.Conn
import NlinkLab.Conntrack
import NlinkLab.Ipfunc
import NlinkLab.Lower.Pool
import NlinkLab.Lower.Translate
import NlinkLab.SubnetPool.Assign
import NlinkLab.Capture.Rotating
import NlinkLab.Lower.Substitute
import NlinkLab.Edit.Order
import NlinkLab.Edit.Remove
import NlinkLab.View.Natural
import NlinkLab.Logs
import NlinkLab.Lower.Grammar
import NlinkLab.Lower.ArithParse
import NlinkLab.Lower.Arithmetic
import NlinkLab.Lower.Condition
import NlinkLab.Lower.Condition.Meaning
import NlinkLab.Validator.Overlap
import NlinkLab.Staging
import NlinkLab.Data.Polyline
import NlinkLab.Traces
import NlinkLab.Traces.Reading
import NlinkLab.Traces.Values
import NlinkLab.Data.Serial
import NlinkLab.Running.Impair
import NlinkLab.Running.Requests
import NlinkLab.Running.Runs
import NlinkLab.Gui.Control
import NlinkLab.Gui.Undo
import NlinkLab.Running.View
import NlinkLab.Running.Scenario
import NlinkLab.Running.Restore
import NlinkLab.Running.PutBack
import NlinkLab.Running.Replay
import NlinkLab.Data.References
import NlinkLab.Imports
import NlinkLab.Imports.Staged

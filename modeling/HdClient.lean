import HdClient.Rpc.Sessions
import HdClient.Rpc.CallIds
import HdClient.Rpc.Segments
import HdClient.Rpc.Closing
import HdClient.Rpc.Atomicity
import HdClient.Rpc.Lockstep
import HdClient.Client.Exceptions
import HdClient.Rpc.RequiredFields
import HdClient.Rpc.Skipping
import HdClient.Rpc.Payloads
import HdClient.Rpc.Requests
import HdClient.Client.HadoopRpc
import HdClient.Client.Listing
import HdClient.Client.ExactTransfers
import HdClient.Client.LoadCounts
import HdClient.Rpc.FrameLengths
import HdClient.Pbc.RoundTrip
import HdClient.Pbc.Decode
import HdClient.Rpc.Clients

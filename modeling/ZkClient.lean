import ZkClient.Frames
import ZkClient.Malformed
import ZkClient.Mkdir
import ZkClient.Children
import ZkClient.Reports
import ZkClient.Hosts
import ZkClient.Refusals
import ZkClient.Causes
import ZkClient.Ownership
import ZkClient.Reconnect
import ZkClient.Retries
import ZkClient.Conditional
import ZkClient.Numbers
import ZkClient.Fetch
import ZkClient.Completion
import ZkClient.Records
import ZkClient.Keepalive
import ZkClient.Xids
import ZkClient.Prompt

import Melnode.Storage.Forks
import Melnode.Storage.Pool
import Melnode.Storage.Stakes
import Melnode.Staker.Votes
import Melnode.Storage.Follow
import Melnode.Staker.Round
import Melnode.Staker.Invariant
import Melnode.Staker.Rebase
import Melnode.Staker.Signing
import Melnode.Staker.Gather
import Melnode.Storage.Solo
import Melnode.Storage.Fresh
import Melnode.Sync.Batch
import Melnode.Sync.Blksync
import Melnode.Storage.Submit
import Melnode.Storage.Reopen
import Melnode.Staker.Proposal
import Melnode.Sync.Shape
import Melnode.Sync.Replies
import Melnode.Storage.Durability
import Melnode.Lib.Prog
import Melnode.Lib.Count
import Melnode.Rpc.Handlers
import Melnode.Rpc.Network
import Melnode.Rpc.Reads
import Melnode.Rpc.Verbs
import Melnode.Rpc.Served
import Melnode.Rpc.Caches
import Melnode.Rpc.Gossip
import Melnode.Rpc.Autoretry
import Melnode.Rpc.Panics
import Melnode.Rpc.Flood
import Melnode.Staker.Weights
import Melnode.Storage.Bookkeeping
import Melnode.Rpc.Batches
import Melnode.Staker.Pruning
import Melnode.Sync.Legacy
import Melnode.Lib.Event
import Melnode.Storage.Waiters
import Melnode.Storage.Holder
import Melnode.Storage.Atomic
import Melnode.Storage.Evolution
import Melnode.Lib.Lifetime
import Melnode.Rpc.Coins
import Melnode.Staker.Restart
import Melnode.Storage.Carried
import Melnode.Staker.Agreement
import Melnode.Staker.Assembly
import Melnode.Sync.Converge
import Melnode.Lib.Log
import Melnode.Staker.Log
import Melnode.Rpc.Wallet
import Melnode.Sync.Migrate
import Melnode.Lib.Channel
import Melnode.Rpc.SelfTest
import Melnode.Staker.Diffs
import Melnode.Staker.Rounds
import Melnode.Rpc.Light
import Melnode.Staker.Progress

import CoMoNet.Admin.Errors
import CoMoNet.Admin.OnChain
import CoMoNet.Chain.Arrival
import CoMoNet.Chain.Overwrite
import CoMoNet.Chain.Termination
import CoMoNet.Post.NewPost
import CoMoNet.Post.Users
import CoMoNet.Post.Accept
import CoMoNet.Post.OnChain
import CoMoNet.Soft.Quorum
import CoMoNet.Chain.Marks
import CoMoNet.Chain.Replacement
import CoMoNet.Chain.Switched
import CoMoNet.Chain.MostWork
import CoMoNet.Chain.Progress
import CoMoNet.Chain.Atomic
import CoMoNet.Chain.MemPool
import CoMoNet.Soft.Node
import CoMoNet.Soft.Trunk
import CoMoNet.Soft.Callers
import CoMoNet.Soft.Enforce
import CoMoNet.Soft.Honest
import CoMoNet.Dht.Get
import CoMoNet.Dht.Stored
import CoMoNet.Dht.Expiry
import CoMoNet.Net.ProcessBlock
import CoMoNet.Net.Orphans
import CoMoNet.Dht.Fresh
import CoMoNet.Dht.Multi
import CoMoNet.Post.Own
import CoMoNet.Admin.Unanimity
import CoMoNet.Chain.Search
import CoMoNet.Chain.VerifyDB
import CoMoNet.Chain.BlockFiles
import CoMoNet.Post.UserData
import CoMoNet.Chain.Candidates
import CoMoNet.Mining.Valid
import CoMoNet.Net.MinWork
import CoMoNet.Merkle.Tree
import CoMoNet.Merkle.Partial
import CoMoNet.Merkle.Block
import CoMoNet.Post.Client
import CoMoNet.Admin.Texts
import CoMoNet.Admin.Primes
import CoMoNet.Post.DirectMsg
import CoMoNet.Post.Polls
import CoMoNet.Torrent.Pieces
import CoMoNet.Torrent.Spare
import CoMoNet.Torrent.Bitfield
import CoMoNet.Lib.PrefixTree
import CoMoNet.Dht.Proxy
import CoMoNet.Chain.NameTree
import CoMoNet.Post.Usernames
import CoMoNet.Post.GetPosts
import CoMoNet.Lib.TopRanked
import CoMoNet.Post.Hashtags
import CoMoNet.Net.Retarget
import CoMoNet.Chain.BlockFileInfo
import CoMoNet.Chain.Fork
import CoMoNet.Net.Locator
import CoMoNet.Post.GroupInvite
import CoMoNet.Torrent.Picker

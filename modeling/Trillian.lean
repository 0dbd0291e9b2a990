import Trillian.Bits
import Trillian.WriteLog
import Trillian.MerkleTreeHash
import Trillian.MerkleAuditPath
import Trillian.LogVerifier
import Trillian.CompactMerkleTree
import Trillian.CompactMerkleTreeAppend
import Trillian.CompactMerkleTreeStorage
import Trillian.NodeID
import Trillian.MerklePath
import Trillian.ProofFetcher
import Trillian.Sequencer
import Trillian.SequencerStorage
import Trillian.ProofFetcherSpec
import Trillian.MerklePathSpec
import Trillian.Base64
import Trillian.Suffix
import Trillian.Bytes
import Trillian.StorageNodeID
import Trillian.SubtreeCache
import Trillian.CachedQuota
import Trillian.LogSubtreeCache
import Trillian.Transaction
import Trillian.EtcdQuotaConfig
import Trillian.EtcdQuotaStorage
import Trillian.EtcdQuotaTokens
import Trillian.MemoryLogStorage
import Trillian.Election
import Trillian.Interceptor
import Trillian.LogSequencing
import Trillian.MapVerifier
import Trillian.HStar2
import Trillian.MapWriter
import Trillian.MapReader

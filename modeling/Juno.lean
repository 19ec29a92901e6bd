import Juno.Trie2.Failed
import Juno.Trie2.Proof
import Juno.FlatTrie.Run
import Juno.FlatTrie.Proof
import Juno.CoreState.History
import Juno.Tendermint.CommitLog
import Juno.Tendermint.Termination
import Juno.Consensus.Listen
import Juno.Consensus.Restart
import Juno.Migration.Runner
import Juno.Sync.Reorg
import Juno.Validator.Demux
import Juno.Preconfirmed.Retention
import Juno.Statebackend.CasmHistory
import Juno.Preconfirmed.StateAt
import Juno.Core.Digest
import Juno.EventFilter.Codec
import Juno.EventFilter.Race
import Juno.Core.BlockTransactions
import Juno.Builder.Build
import Juno.Propeller.Inclusion
import Juno.Preconfirmed.RequestSync
import Juno.Mempool.Pool

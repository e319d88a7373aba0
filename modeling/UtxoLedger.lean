import UtxoLedger.Block.Replay
import UtxoLedger.Ledger
import UtxoLedger.Pool
import UtxoLedger.Proofs.BodyCommitment
import UtxoLedger.Proofs.ChainWork
import UtxoLedger.Proofs.FailureAtomicity
import UtxoLedger.Proofs.LawfulBlocks
import UtxoLedger.Proofs.LoadedChains
import UtxoLedger.Proofs.MapStore
import UtxoLedger.Proofs.MinedPool
import UtxoLedger.Proofs.MoneySupply
import UtxoLedger.Proofs.NavigatedLedger
import UtxoLedger.Proofs.Navigation
import UtxoLedger.Proofs.OtherBodies
import UtxoLedger.Proofs.OutputLists
import UtxoLedger.Proofs.PlainCoins
import UtxoLedger.Proofs.PoolIndex
import UtxoLedger.Proofs.ReplayAgreement
import UtxoLedger.Proofs.RollbackTarget
import UtxoLedger.Proofs.RollbackWindow
import UtxoLedger.Proofs.ScriptCoverage
import UtxoLedger.Proofs.SnapshotIsolation
import UtxoLedger.Proofs.StaleLedgers
import UtxoLedger.Proofs.StoredChain
import UtxoLedger.Proofs.UnspentCommitment
import UtxoLedger.Proofs.Unwinding
import UtxoLedger.Proofs.ConfirmedPool
import UtxoLedger.Proofs.RunningScans

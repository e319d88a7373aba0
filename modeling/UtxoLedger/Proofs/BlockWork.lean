import UtxoLedger.Proofs.WriteTransaction

/-!
# The work of a block is staging

Every step that connecting or disconnecting a block takes, up to the whole of `connectBlock` and
`disconnectBlock`, reads and stages and does nothing else to its session. The instances follow the
definitions; recursive steps take an induction over their list.
-/
namespace UtxoLedger

namespace StoreM

instance (h : ChainedHeader) : Staging (addHeader h) := by
  unfold addHeader
  infer_instance

instance (h : ChainedHeader) : Staging (removeHeader h) :=
  .bind inferInstance fun stored => by cases stored <;> infer_instance

instance (u : UnspentTx) : Staging (tryAddUnspent u) := by
  unfold tryAddUnspent
  infer_instance

instance (tx : Hash) : Staging (tryRemoveUnspent tx) := by
  unfold tryRemoveUnspent
  infer_instance

instance (u : UnspentTx) : Staging (tryUpdateUnspent u) :=
  .bind inferInstance fun _ => .bind inferInstance fun stored => by
    cases stored <;> infer_instance

instance (height : Height) (txs : SpentList) : Staging (tryAddSpent height txs) := by
  unfold tryAddSpent
  infer_instance

instance (height : Height) : Staging (tryRemoveSpent height) := by
  unfold tryRemoveSpent
  infer_instance

instance (block : Hash) (txs : UnmintedList) : Staging (tryAddUnminted block txs) := by
  unfold tryAddUnminted
  infer_instance

instance (block : Hash) : Staging (tryRemoveUnminted block) := by
  unfold tryRemoveUnminted
  infer_instance

instance (c : Counter) (value : UInt64) : Staging (writeCounter c value) := by
  unfold writeCounter
  infer_instance

instance (values : Counters) (cs : List Counter) : Staging (writeEach values cs) := by
  induction cs with
  | nil => exact inferInstanceAs (Staging (pure ()))
  | cons c cs ih => exact .bind inferInstance fun _ => ih

instance (values : Counters) : Staging (writeCounters values) := by
  unfold writeCounters
  infer_instance

instance (expected : Hash) (height : Height) : Staging (checkTip expected height) :=
  .bind inferInstance fun tip => by cases tip <;> infer_instance

end StoreM

open StoreM (Staging)

namespace Journal

instance (height : Height) (txs : SpentList) : Staging (writeSpent height txs) := by
  unfold writeSpent
  infer_instance

instance (block : Hash) (txs : UnmintedList) : Staging (writeUnminted block txs) := by
  unfold writeUnminted
  infer_instance

instance (j : Journal) (h : ChainedHeader) : Staging (j.write h) := by
  unfold write
  infer_instance

instance (h : ChainedHeader) : Staging (erase h) := by
  unfold erase
  infer_instance

instance (h : ChainedHeader) : Staging (remove h) := by
  unfold remove
  infer_instance

instance (h : ChainedHeader) : Staging (prune h) := by
  unfold prune
  infer_instance

end Journal

instance {σ α : Type} (work : σ → α → StoreM (LoadedTx × σ)) [∀ s a, Staging (work s a)]
    (state : σ) (items : List α) : Staging (Progress.workOff work state items) := by
  induction items generalizing state with
  | nil => exact inferInstanceAs (Staging (pure state))
  | cons a rest ih => exact .bind inferInstance fun _ => ih _

instance {σ α : Type} (work : σ → α → StoreM (LoadedTx × σ)) [∀ s a, Staging (work s a)]
    (fault : Inconsistency) (p : Progress σ α) : Staging (p.finish work fault) := by
  unfold Progress.finish
  infer_instance

namespace Connecting

instance (archive : Archive) (chain : Chain) (header : ChainedHeader) (block : Block) :
    Staging (start archive chain header block) := by
  unfold start
  infer_instance

instance (c : Connecting) (o : OutPoint) : Staging (c.spend o) :=
  .bind inferInstance fun found => by cases found <;> infer_instance

instance (c : Connecting) (inputs : List TxInput) : Staging (c.spendAll inputs) := by
  induction inputs generalizing c with
  | nil => exact inferInstanceAs (Staging (pure _))
  | cons input rest ih => exact .bind inferInstance fun _ => .bind (ih _) fun _ => inferInstance

instance (c : Connecting) (tx : Transaction) (hash : Hash) : Staging (c.mint tx hash) := by
  unfold mint
  infer_instance

instance (c : Connecting) (tx : Transaction) : Staging (c.connect tx) := by
  unfold connect
  infer_instance

instance (c : Connecting) : Staging c.close := by
  unfold close
  infer_instance

instance (p : Progress Connecting Transaction) : Staging (finish p) := by
  unfold finish
  infer_instance

end Connecting

namespace Disconnecting

instance (l : Locator) (places : Std.ExtTreeMap Hash TxLocation) (counters : Counters)
    (txs : SpentList) : Staging (restore l places counters txs) := by
  induction txs generalizing counters with
  | nil => exact inferInstanceAs (Staging (pure counters))
  | cons tx rest ih =>
    unfold restore
    cases places[tx]? with
    | none => infer_instance
    | some place =>
      exact .bind inferInstance fun _ => .bind inferInstance fun _ => .bind inferInstance fun _ =>
        ih _

instance (archive : Archive) (header : ChainedHeader) (block : Block) :
    Staging (start archive header block) := by
  unfold start
  infer_instance

instance (d : Disconnecting) (tx : Transaction) (hash : Hash) : Staging (d.unmint tx hash) := by
  unfold unmint
  split
  · infer_instance
  · exact .bind inferInstance fun found => by cases found <;> infer_instance

instance (d : Disconnecting) (o : OutPoint) (place : TxLocation) : Staging (d.unspend o place) :=
  .bind inferInstance fun found => by cases found <;> infer_instance

instance (d : Disconnecting) (spent : List (TxInput × TxLocation)) :
    Staging (d.unspendAll spent) := by
  induction spent generalizing d with
  | nil => exact inferInstanceAs (Staging (pure _))
  | cons s rest ih => exact .bind inferInstance fun _ => .bind (ih _) fun _ => inferInstance

instance (d : Disconnecting) (item : Transaction × Nat) : Staging (d.disconnect item) := by
  unfold disconnect
  infer_instance

instance (txs : SpentList) : Staging (checkRestored txs) := by
  induction txs with
  | nil => exact inferInstanceAs (Staging (pure ()))
  | cons tx rest ih =>
    exact .bind inferInstance fun found => by cases found <;> infer_instance

instance (d : Disconnecting) : Staging d.close := by
  unfold close
  infer_instance

instance (p : Progress Disconnecting (Transaction × Nat)) : Staging (finish p) := by
  unfold finish
  infer_instance

end Disconnecting

namespace Ledger

instance (header : ChainedHeader) (c : Connecting) (txs : List Transaction) :
    Staging (loadAll header c txs) := by
  induction txs generalizing c with
  | nil => exact inferInstanceAs (Staging (pure _))
  | cons tx rest ih =>
    exact .bind inferInstance fun _ => .bind inferInstance fun _ => .bind (ih _) fun _ =>
      inferInstance

instance (l : Ledger) (archive : Archive) (header : ChainedHeader) (block : Block) :
    Staging (l.connectBlock archive header block) := by
  unfold connectBlock
  cases prunable? l.chain l.settings.maxRollbackDepth header.height <;> infer_instance

instance (archive : Archive) (header : ChainedHeader) (block : Block) :
    Staging (disconnectBlock archive header block) := by
  unfold disconnectBlock
  infer_instance

end Ledger
end UtxoLedger

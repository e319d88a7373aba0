import Mathlib.Tactic.Common
import UtxoLedger.Proofs.FeeArithmetic
import UtxoLedger.Proofs.PoolClaims
import UtxoLedger.Proofs.RebuiltStore

/-!
# The pool and the replay see the same outputs

The pool looks up what a transaction spends in a snapshot; a block that holds the transaction looks
it up while records change under it. A record keeps its place as long as it is there, and nothing
comes in under its name, so the two find the same outputs. Then they also agree on the fee, and on
what the scripts are judged by.
-/
namespace UtxoLedger

/-- A verifier that goes by the transaction, the input and the output that it spends. -/
def ScriptVerifier.Plain (verify : ScriptVerifier) : Prop :=
  ∀ a b : ScriptItem, a.tx = b.tx → a.inputIndex = b.inputIndex → a.prevOutput = b.prevOutput →
    verify a = verify b

namespace Locator

/-- Any record under the name of `o` in `start` leads to `source`. -/
def Leads (l : Locator) (chain : Chain) (start : Table) (o : OutPoint) (source : Transaction) :
    Prop :=
  ∀ u : UnspentTx, start[o.hash.bytes]? = some u.encode → u.states.size < 2 ^ 32 →
    ∃ place, l.placeOf chain u = .ok place ∧ l.resolve place o.hash = .ok source

end Locator

namespace Connecting

variable {c c' : Connecting} {start U U' : Table} {o : OutPoint} {source tx : Transaction}
  {place : TxLocation} {inputs : List TxInput} {sources txs : List Transaction}
  {places : List TxLocation} {ld : LoadedTx} {loaded : List LoadedTx}

/-- A record that was there at the start has kept its place. -/
def Steady (start U : Table) : Prop :=
  ∀ (k : Bytes) (u₀ u : UnspentTx), start[k]? = some u₀.encode → u₀.states.size < 2 ^ 32 →
    U[k]? = some u.encode → u.states.size < 2 ^ 32 → u.height = u₀.height ∧ u.index = u₀.index

lemma Steady.refl (start : Table) : Steady start start := by
  intro k u₀ u found₀ size₀ found size_lt
  rw [found₀, Option.some.injEq, UnspentTx.encode_inj size₀ size_lt] at found
  rw [found]
  exact ⟨rfl, rfl⟩

lemma Steady.spend (hs : Steady start U) (h : SpendsOwn c o U source place c' U') :
    Steady start U' := by
  intro k u₀ v found₀ size₀ found size_lt
  by_cases hk : o.hash.bytes = k
  · subst hk
    cases h with
    | last => simp at found
    | @more u states _ own =>
      rw [Table.getElem?_insert, if_pos rfl, Option.some.injEq] at found
      have hsize : ({ u with states } : UnspentTx).states.size < 2 ^ 32 :=
        (size_of_spentStates own.spent).trans_lt own.size_lt
      obtain rfl := (UnspentTx.encode_inj hsize size_lt).1 found
      exact hs _ u₀ u found₀ size₀ own.found own.size_lt
  · rw [h.elsewhere hk] at found
    exact hs k u₀ v found₀ size₀ found size_lt

lemma Steady.mint (hs : Steady start U) (h : Mints c tx tx.hash U c' U')
    (absent : start[tx.hash.bytes]? = none) : Steady start U' := by
  cases h with
  | empty => exact hs
  | enters =>
    intro k u₀ u found₀ size₀ found size_lt
    rw [Table.getElem?_insert, if_neg] at found
    · exact hs k u₀ u found₀ size₀ found size_lt
    · rintro rfl
      exact nomatch absent.symm.trans found₀

lemma Steady.leads (hs : Steady start U) (h : SpendsOwn c o U source place c' U') :
    c.locator.Leads c.chain start o source := by
  intro u₀ found₀ size₀
  obtain ⟨u, states, lowered, own⟩ := h.spendable
  obtain ⟨hheight, hindex⟩ := hs _ u₀ u found₀ size₀ own.found own.size_lt
  exact ⟨place, Locator.placeOf_congr hheight.symm hindex.symm own.located, own.resolved⟩

/-- What is spent is what the records led to at the start. -/
lemma Steady.spendAll (hs : Steady start U) (hg : Grounded c.locator c.chain U)
    (h : SpendsAll c inputs U sources places c' U') : Steady start U' ∧
      List.Forall₂ (fun input source => c.locator.Leads c.chain start input.prevout source)
        inputs sources := by
  induction h with
  | nil => exact ⟨hs, .nil⟩
  | cons first _ ih =>
    have own := first.own hg
    obtain ⟨hsteady, hrest⟩ := ih (hs.spend own) (own.grounded hg)
    rw [first.sameBlock.locator, first.sameBlock.chain] at hrest
    exact ⟨hsteady, .cons (hs.leads own) hrest⟩

lemma Steady.connect (hs : Steady start U) (hg : Grounded c.locator c.chain U)
    (h : Connects c tx U ld c' U') (absent : start[tx.hash.bytes]? = none) : Steady start U' ∧
      (ld.tx = tx ∧ ld.hash = tx.hash ∧ ld.isCoinbase = tx.isCoinbase) ∧
      List.Forall₂ (fun input source => c.locator.Leads c.chain start input.prevout source)
        tx.spending ld.sources := by
  obtain ⟨-, -, spends, mints⟩ := h
  obtain ⟨hsteady, hleads⟩ := hs.spendAll (by exact hg) spends
  exact ⟨hsteady.mint mints absent, ⟨rfl, rfl, rfl⟩, hleads⟩

/-- The transactions of a block are loaded with the sources that the records led to when the block
began, if none of the records bears the name of a transaction of the block. -/
theorem ConnectsAll.leads (h : ConnectsAll c txs U loaded c' U') (hs : Steady start U)
    (hg : Grounded c.locator c.chain U) (absent : ∀ tx ∈ txs, start[tx.hash.bytes]? = none)
    (hat : c.locator.block.txs.drop c.position = txs)
    (hcount : c.locator.block.txs.length ≤ 2 ^ 31)
    (hlength : ∀ tx ∈ txs, tx.outputs.length < 2 ^ 32) :
    List.Forall₂ (fun tx ld => (ld.tx = tx ∧ ld.hash = tx.hash ∧ ld.isCoinbase = tx.isCoinbase) ∧
      List.Forall₂ (fun input source => c.locator.Leads c.chain start input.prevout source)
        tx.spending ld.sources) txs loaded := by
  induction h with
  | nil => exact .nil
  | cons first more ih =>
    rw [List.forall_mem_cons] at absent hlength
    obtain ⟨hsteady, hloaded⟩ := hs.connect hg first absent.1
    obtain ⟨htx, hposition, hpending, hcount'⟩ := first.next hat hcount
    obtain ⟨places, hafter⟩ := first.after
    have hrest := ih hsteady (first.grounded hg htx hposition hlength.1) absent.2 hpending hcount'
      hlength.2
    rw [hafter.locator, hafter.chain] at hrest
    exact .cons hloaded hrest

end Connecting

/-- What stands on a chain does not stand where the next header goes. -/
lemma Chain.of_get?_below {below : Chain} {header h : ChainedHeader} {height : Height}
    (hx : header.Extends below.tip) (hget : below.get? height = some h) :
    h ∈ below.headers ∧ height ≠ header.height := by
  have hheight : below.tip.height.toInt = (below.headers.length - 1 : Nat) := below.toInt_height
  unfold get? at hget
  split at hget
  next hnonneg =>
    refine ⟨List.mem_of_getElem? hget, ?_⟩
    rintro rfl
    have hlt := (List.getElem?_eq_some_iff.1 hget).1
    have hext := hx.1
    omega
  · exact nomatch hget

lemma Pool.of_loadOutput {archive : Archive} {s : Snapshot} {u : UnspentTx} {i : UInt32}
    {output : TxOutput} (h : loadOutput archive s u i = .ok output) : ∃ h tx,
      s.chain.get? u.height = some h ∧ archive.tx? h.hash u.index.toInt.toNat = some tx ∧
      tx.outputs[i.toNat]? = some output := by
  unfold loadOutput at h
  split at h
  · exact nomatch h
  next header hget =>
    dsimp only at h
    split at h
    · exact nomatch h
    next tx hfound =>
      obtain ⟨htx, -⟩ := Option.filter_eq_some_iff.1 hfound
      split at htx
      · exact nomatch htx
      · split at h
        · exact nomatch h
        next o hout =>
          cases h
          exact ⟨header, tx, hget, htx, hout⟩

/-- The output that the pool found is that of the source. -/
lemma Snapshot.Lends.output_eq {s : Snapshot} {earlier archive : Archive} {header : ChainedHeader}
    {block : Block} {o : OutPoint} {output : TxOutput} {source : Transaction}
    (lends : s.Lends earlier o output) (within : earlier.Within archive)
    (hx : header.Extends s.chain.tip)
    (hnew : ∀ h ∈ s.chain.headers, h.hash ≠ header.hash)
    (leads : (⟨archive, header, block⟩ : Locator).Leads s.chain s.tables.unspent o source) :
    source.outputs[o.index.toNat]? = some output := by
  obtain ⟨u, hread, -, hload⟩ := lends
  obtain ⟨found, size_lt⟩ := Tables.unspent?_eq_some.1 hread
  obtain ⟨h, tx, hget, htx, hout⟩ := Pool.of_loadOutput hload
  obtain ⟨hmem, hbelow⟩ := Chain.of_get?_below hx hget
  obtain ⟨place, located, resolved⟩ := leads u found size_lt
  obtain ⟨-, hat, -⟩ := Locator.resolve_eq_ok.1 resolved
  have hplace : (⟨archive, header, block⟩ : Locator).placeOf s.chain u =
      .ok ⟨h.hash, u.height, u.index⟩ := by
    unfold Locator.placeOf
    rw [if_neg hbelow, hget]
  cases hplace.symm.trans located
  rw [Locator.txAt?, if_neg (hnew h hmem)] at hat
  cases (within.tx? htx).symm.trans hat
  exact hout

namespace LoadedTx

variable {l : LoadedTx} {outputs rest : List TxOutput} {total sum fee : Amount}
  {inputs : List TxInput} {i : Nat}

/-- The inputs spend these outputs. -/
structure Resolves (l : LoadedTx) (outputs : List TxOutput) : Prop where
  length : l.tx.inputs.length = outputs.length
  read : ∀ i, l.prevOutput? i = outputs[i]?

lemma Resolves.of_forall₂ {R : TxInput → Transaction → Prop} {S : TxInput → TxOutput → Prop}
    (found : List.Forall₂ R l.tx.inputs l.sources) (lent : List.Forall₂ S l.tx.inputs outputs)
    (agree : ∀ input source output, R input source → S input output →
      source.outputs[input.prevout.index.toNat]? = some output) : l.Resolves outputs := by
  refine ⟨lent.length_eq, fun i => ?_⟩
  by_cases hi : i < l.tx.inputs.length
  · have hsource : i < l.sources.length := found.length_eq ▸ hi
    have houtput : i < outputs.length := lent.length_eq ▸ hi
    have h := agree _ _ _ (found.get hi hsource) (lent.get hi houtput)
    simpa [prevOutput?, hi, hsource, houtput] using h
  · have houtput : outputs.length ≤ i := lent.length_eq ▸ Nat.not_lt.1 hi
    simp [prevOutput?, Nat.not_lt.1 hi, houtput]

lemma spentFrom_of_sumFrom (read : ∀ i, l.prevOutput? i = outputs[i]?)
    (hat : outputs.drop i = rest) (length : inputs.length = rest.length)
    (h : Amount.sumFrom total (rest.map TxOutput.value) = some sum) :
    l.spentFrom i total inputs = .ok sum := by
  induction inputs generalizing i total rest with
  | nil =>
    obtain rfl := List.eq_nil_of_length_eq_zero length.symm
    cases h
    rfl
  | cons input inputs ih =>
    cases rest with
    | nil => simp at length
    | cons o rest =>
      rw [List.map_cons, Amount.sumFrom] at h
      split at h
      · cases h
      · split at h
        next t hadd =>
          rw [spentFrom, read, getElem?_of_drop hat]
          dsimp only
          rw [hadd]
          refine ih ?_ (Nat.succ.inj length) h
          rw [← List.drop_drop, hat, List.drop_one, List.tail_cons]
        · cases h

/-- The block rules find the fee that the pool found. -/
lemma Resolves.fee_of_feeOver (h : l.Resolves outputs) (spends : l.isCoinbase = false)
    (hfee : Pool.feeOver l.tx outputs = .ok fee) : l.fee = .ok fee ∧ 0 ≤ fee.toInt := by
  unfold Pool.feeOver at hfee
  split at hfee
  · exact nomatch hfee
  next total htotal =>
    split at hfee
    · exact nomatch hfee
    next paid hpaid =>
      split at hfee
      · exact nomatch hfee
      next hle =>
        cases hfee
        rw [Int64.lt_iff_toInt_lt, Int.not_lt] at hle
        obtain ⟨-, htotal₀, htotal₁⟩ := Amount.toInt_of_sumFrom htotal (by decide)
        obtain ⟨-, hpaid₀, hpaid₁⟩ := Amount.toInt_of_sumFrom hpaid (by decide)
        have hsub := Amount.toInt_sub_of_le htotal₀ hpaid₀ htotal₁ hpaid₁
        have hnonneg : 0 ≤ (total - paid).toInt := by omega
        have hspent : l.spentFrom 0 0 l.tx.inputs = .ok total :=
          spentFrom_of_sumFrom h.read List.drop_zero h.length htotal
        refine ⟨?_, hnonneg⟩
        rw [LoadedTx.fee, spends, if_neg (by simp), hspent]
        dsimp only
        rw [hpaid]
        refine if_neg ?_
        rw [Int64.lt_iff_toInt_lt, Int.not_lt]
        exact hnonneg

lemma scriptItemsFrom_eq (read : ∀ i, l.prevOutput? i = outputs[i]?)
    (hat : outputs.drop i = rest) (length : inputs.length = rest.length) (header : ChainedHeader) :
    l.scriptItemsFrom header i inputs =
      .ok ((rest.zipIdx i).map fun e => ⟨header, l.tx, l.hash, l.index, e.2, e.1⟩) := by
  induction inputs generalizing i rest with
  | nil =>
    obtain rfl := List.eq_nil_of_length_eq_zero length.symm
    rfl
  | cons input inputs ih =>
    cases rest with
    | nil => simp at length
    | cons o rest =>
      have hrest : outputs.drop (i + 1) = rest := by
        rw [← List.drop_drop, hat, List.drop_one, List.tail_cons]
      rw [scriptItemsFrom, read, getElem?_of_drop hat, ih hrest (Nat.succ.inj length)]
      rfl

/-- One script item for each output that is spent. -/
lemma Resolves.scriptItems (h : l.Resolves outputs) (spends : l.isCoinbase = false)
    (header : ChainedHeader) : l.scriptItems header =
      .ok (outputs.zipIdx.map fun e => ⟨header, l.tx, l.hash, l.index, e.2, e.1⟩) := by
  rw [LoadedTx.scriptItems, spends, if_neg (by simp)]
  exact scriptItemsFrom_eq h.read List.drop_zero h.length header

end LoadedTx

lemma Pool.askScripts_eq_ok {verify : ScriptVerifier} {tip : ChainedHeader}
    {tx : Transaction} {name : Hash} {i : Nat} {outputs : List TxOutput} :
    askScripts verify tip tx name i outputs = .ok () ↔
      ∀ e ∈ outputs.zipIdx i, verify ⟨tip, tx, name, 0, e.2, e.1⟩ = .accepted := by
  induction outputs generalizing i with
  | nil => simp [askScripts]
  | cons o rest ih =>
    rw [askScripts, List.zipIdx_cons, List.forall_mem_cons]
    cases hverdict : verify ⟨tip, tx, name, 0, i, o⟩ with
    | accepted => simpa using ih
    | rejected reason => simp
    | crashed => simp

/-- A plain verifier accepts in a block what it accepted for the pool. -/
lemma ScriptVerifier.Plain.accepts {verify : ScriptVerifier} (plain : verify.Plain)
    {tip header : ChainedHeader} {l : LoadedTx} {name : Hash} {outputs : List TxOutput}
    (accepted : Pool.askScripts verify tip l.tx name 0 outputs = .ok ()) :
    ∀ item ∈ outputs.zipIdx.map fun e =>
      (⟨header, l.tx, l.hash, l.index, e.2, e.1⟩ : ScriptItem), item.failure? verify = none := by
  intro item hitem
  obtain ⟨e, he, rfl⟩ := List.mem_map.1 hitem
  have hverdict := Pool.askScripts_eq_ok.1 accepted e he
  have hsame : verify ⟨header, l.tx, l.hash, l.index, e.2, e.1⟩ =
      verify ⟨tip, l.tx, name, 0, e.2, e.1⟩ := plain _ _ rfl rfl rfl
  rw [ScriptItem.failure?, hsame, hverdict]
  rfl

end UtxoLedger

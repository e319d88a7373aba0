import UtxoLedger.Archive
import UtxoLedger.Consensus.Rules
import UtxoLedger.Snapshot

/-!
# The pool of unconfirmed transactions

A transaction enters the pool if it is within its limits, spends only unspent outputs of the
committed state that no pooled transaction claims, brings at least what it pays out, and convinces
every script. A confirmed block takes its transactions out, and those it made double spends.
-/
namespace UtxoLedger

/-- A transaction of the pool. -/
structure PooledTx where
  tx : Transaction
  hash : Hash
  fee : Amount
  /-- The height of the chain when the transaction came in. -/
  height : Height
  deriving DecidableEq

/-- Pooled transactions by name, and who spends which outpoint. -/
structure Pool where
  txs : Std.ExtTreeMap Hash PooledTx
  spenders : Std.ExtTreeMap OutPoint Hash
  deriving DecidableEq

/-- Why a transaction is kept out. -/
inductive Rejection
  | coinbase
  | limits (fault : TxFault)
  | alreadyPooled
  | conflict
  | noSuchOutput (input : Nat)
  | notUnspent (input : Nat)
  | inputRange
  | outputRange
  | insufficient
  | script (input : Nat) (reason : String)
  deriving DecidableEq

def Rejection.message : Rejection → String
  | coinbase => "Coinbase transaction"
  | limits fault => fault.message
  | alreadyPooled => "Transaction already in mempool"
  | conflict => "Transaction conflicts with mempool"
  | noSuchOutput input => s!"Input {input} not found in UTXO set"
  | notUnspent input => s!"Input {input} is spent or out of range"
  | inputRange => "Input value out of range"
  | outputRange => "Output value out of range"
  | insufficient => "Insufficient input value"
  | script input reason => s!"Invalid script at input {input}: {reason}"

/-- How a transaction fails to enter the pool. -/
inductive Refusal
  | rejected (rejection : Rejection)
  /-- The script verifier crashed and took the call with it, so there is no answer. -/
  | crashed
  /-- The committed state could not be read. -/
  | failed (error : LedgerError)
  deriving DecidableEq

/-- What a confirmed block did to the pool. -/
structure Confirmation where
  block : ChainedHeader
  confirmed : Std.ExtTreeMap Hash PooledTx
  /-- Transactions that lost an input to the block, in the order of the block. -/
  conflicted : List Hash
  deriving DecidableEq

namespace Pool

def empty : Pool := ⟨∅, ∅⟩

def size (p : Pool) : Nat := p.txs.size

def get? (p : Pool) (hash : Hash) : Option PooledTx := p.txs[hash]?

/-- Adds a transaction and claims its sources. -/
def insert (p : Pool) (t : PooledTx) : Pool :=
  ⟨p.txs.insert t.hash t,
   t.tx.inputs.foldl (fun m input => m.insert input.prevout t.hash) p.spenders⟩

/-- Takes a transaction out and frees its sources. -/
def remove (p : Pool) (hash : Hash) : Pool :=
  match p.get? hash with
  | none => p
  | some t =>
    ⟨p.txs.erase hash, t.tx.inputs.foldl (fun m input => m.erase input.prevout) p.spenders⟩

/-- What the pool itself says against a transaction. -/
def rejection? (p : Pool) (tx : Transaction) (hash : Hash) : Option Rejection :=
  if p.txs.contains hash then some .alreadyPooled
  else if tx.inputs.any fun input => p.spenders.contains input.prevout then some .conflict
  else none

/-- The output that a record of the unspent set stands for. -/
def loadOutput (archive : Archive) (s : Snapshot) (u : UnspentTx) (output : UInt32) :
    Except Inconsistency TxOutput :=
  match s.chain.get? u.height with
  | none => .error (.unspentBeyondChain u.hash u.height)
  | some h =>
    let found := if u.index.toInt < 0 then none else archive.tx? h.hash u.index.toInt.toNat
    match found.filter fun tx => tx.hash = u.hash with
    | none => .error (.unspentNotInBlock u.hash h.hash)
    | some tx =>
      match tx.outputs[output.toNat]? with
      | none => .error (.unspentOutputMissing u.hash output)
      | some o => .ok o

/-- The outputs that the inputs from position `i` on spend, unless one of them is not unspent. -/
def prevOutputs (archive : Archive) (s : Snapshot) (i : Nat) :
    List TxInput → Except Refusal (List TxOutput)
  | [] => .ok []
  | input :: rest => do
    match ← (s.tables.unspent? input.prevout.hash).mapError .failed with
    | none => .error (.rejected (.noSuchOutput i))
    | some u =>
      if u.states.get? input.prevout.index.toNat ≠ some .unspent then
        .error (.rejected (.notUnspent i))
      else
        let o ← (loadOutput archive s u input.prevout.index).mapError fun fault =>
          .failed (.inconsistent fault)
        let more ← prevOutputs archive s (i + 1) rest
        return o :: more

/-- What the inputs bring less what the outputs take. -/
def feeOver (tx : Transaction) (spent : List TxOutput) : Except Rejection Amount :=
  match Amount.moneySum (spent.map TxOutput.value) with
  | none => .error .inputRange
  | some total =>
    match Amount.moneySum (tx.outputs.map TxOutput.value) with
    | none => .error .outputRange
    | some paid => if total < paid then .error .insufficient else .ok (total - paid)

/-- Asks the scripts of the inputs from position `i` on, up to the first that does not accept. -/
def askScripts (verify : ScriptVerifier) (tip : ChainedHeader) (tx : Transaction) (hash : Hash)
    (i : Nat) : List TxOutput → Except Refusal Unit
  | [] => .ok ()
  | o :: rest =>
    match verify ⟨tip, tx, hash, 0, i, o⟩ with
    | .accepted => askScripts verify tip tx hash (i + 1) rest
    | .rejected reason => .error (.rejected (.script i reason))
    | .crashed => .error .crashed

/-- Judges a transaction against the committed state. -/
def judge (archive : Archive) (rules : Rules) (db : Database) (tx : Transaction) (hash : Hash) :
    Except Refusal PooledTx := do
  let s ← (Snapshot.take db).mapError .failed
  let spent ← prevOutputs archive s 0 tx.inputs
  let fee ← (feeOver tx spent).mapError .rejected
  askScripts rules.verify s.chain.tip tx hash 0 spent
  return ⟨tx, hash, fee, s.chain.tip.height⟩

/-- Takes a transaction in, or says why not; the pool that the call leaves stands beside the answer.
The call is one step. Callers that run at the same time would ask the pool once more, alone with it,
right before the transaction is entered; within one step that repeats the first answer. -/
def accept (p : Pool) (archive : Archive) (rules : Rules) (db : Database) (tx : Transaction) :
    Except Refusal Unit × Pool :=
  if tx.isCoinbase then (.error (.rejected .coinbase), p)
  else match tx.fault? with
    | some fault => (.error (.rejected (.limits fault)), p)
    | none =>
      let hash := tx.hash
      match p.rejection? tx hash with
      | some rejection => (.error (.rejected rejection), p)
      | none =>
        match judge archive rules db tx hash with
        | .error refusal => (.error refusal, p)
        | .ok t => (.ok (), p.insert t)

/-- Takes out whoever spends the sources of the inputs, and lists them. -/
def evict (p : Pool) (evicted : List Hash) : List TxInput → Pool × List Hash
  | [] => (p, evicted)
  | input :: rest =>
    match p.spenders[input.prevout]? with
    | some hash => (p.remove hash).evict (evicted ++ [hash]) rest
    | none => p.evict evicted rest

/-- Takes the transactions of a block and their rivals out. -/
def confirmTxs (p : Pool) (c : Confirmation) : List Transaction → Pool × Confirmation
  | [] => (p, c)
  | tx :: rest =>
    let hash := tx.hash
    match p.get? hash with
    | some t =>
      (p.remove hash).confirmTxs { c with confirmed := c.confirmed.insert hash t } rest
    | none =>
      if tx.isCoinbase then p.confirmTxs c rest
      else
        let (p, conflicted) := p.evict c.conflicted tx.inputs
        p.confirmTxs { c with conflicted } rest

/-- Takes out what a block confirmed and what it made a double spend. -/
def confirm (p : Pool) (header : ChainedHeader) (block : Block) : Pool × Confirmation :=
  p.confirmTxs ⟨header, ∅, []⟩ block.txs

end Pool
end UtxoLedger

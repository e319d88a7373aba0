/-!
# Amounts of money

Amounts are signed 64-bit numbers of the smallest unit. A sum of money is valid while every
addend and every partial sum lies between zero and the total supply.
-/
namespace UtxoLedger

/-- An amount in the smallest unit. -/
abbrev Amount := Int64

namespace Amount

/-- The total supply: 21 million coins of 10 ^ 8 units. -/
def maxMoney : Amount := 2100000000000000

/-- The sum, if 64 bits hold it. -/
def checkedAdd (a b : Amount) : Option Amount :=
  let s := a.toInt + b.toInt
  if Int64.minValue.toInt ≤ s ∧ s ≤ Int64.maxValue.toInt then some (Int64.ofInt s) else none

/-- The sum, or the nearest amount that 64 bits hold. -/
def saturatingAdd (a b : Amount) : Amount :=
  let s := a.toInt + b.toInt
  if s < Int64.minValue.toInt then Int64.minValue
  else if Int64.maxValue.toInt < s then Int64.maxValue
  else Int64.ofInt s

/-- Adds an amount to a running total that must not pass the total supply. -/
def addWithin (total value : Amount) : Option Amount :=
  (checkedAdd total value).filter (· ≤ maxMoney)

/-- The sum of the amounts on top of `total`; none may be negative. -/
def sumFrom (total : Amount) : List Amount → Option Amount
  | [] => some total
  | v :: vs =>
    if v < 0 then none
    else match addWithin total v with
      | some t => sumFrom t vs
      | none => none

/-- A valid sum of money. -/
def moneySum (values : List Amount) : Option Amount := sumFrom 0 values

/-- The number of blocks after which the block subsidy halves. -/
def halvingInterval : Nat := 210000

/-- The subsidy of the first block. -/
def initialSubsidy : Nat := 5000000000

/-- The newly created amount that a block at a height may pay out; nothing after 64 halvings, and
negative heights count as zero. -/
def subsidy (height : Int32) : Amount :=
  let halvings := height.toInt.toNat / halvingInterval
  if 64 ≤ halvings then 0 else Int64.ofNat (initialSubsidy >>> halvings)

end Amount
end UtxoLedger

import WorkLedger.Chain.Unspent
import WorkLedger.KeyPair

/-!
# Payments

A payment spends unspent outputs of the sender, in the order of the chain, until they reach the
amount. What is left over goes back to the sender as a second output. Every input is signed with the
sender's key, over the text of the point that it spends.
-/

namespace WorkLedger

/-- Why a payment cannot be made. -/
inductive PaymentError where
  | invalidAmount (amount : Float)
  | invalidKey (cause : KeyError)
  | sameAddress
  | noFunds (address : String)
  | insufficientFunds (requested available : Float)

/-- The text of a payment error. -/
def PaymentError.message : PaymentError → String
  | invalidAmount amount => "Amount must be a positive number, got " ++ Amount.text amount
  | invalidKey cause => "Invalid private key: " ++ cause.message
  | sameAddress => "Sender and receiver are the same address"
  | noFunds address => "No unspent outputs for " ++ address
  | insufficientFunds requested available =>
    "Insufficient funds: requested " ++ Amount.text requested ++ ", available "
      ++ Amount.text available

namespace Payment

/-- Takes outputs from the front until their total, which starts at `total`, reaches an amount;
takes all of them if it never does. -/
def selectFrom (amount total : Float) : List UnspentOutput → List UnspentOutput × Float
  | [] => ([], total)
  | u :: rest =>
    let next := total + u.amount
    if next ≥ amount then ([u], next)
    else
      let (chosen, reached) := selectFrom amount next rest
      (u :: chosen, reached)

/-- The outputs that a payment of an amount spends, and their total. -/
def select (amount : Float) (us : List UnspentOutput) : List UnspentOutput × Float :=
  selectFrom amount 0 us

/-- The signed input that spends an output. -/
def signedInput (k : KeyPair) (u : UnspentOutput) : TxIn :=
  .unresolved u.point (Hex.encode (k.sign u.point.text.toByteArray.data.toList))

/-- The outputs of a payment: the amount for the receiver, and the rest of the total for the
sender. -/
def outputs (sender receiver : String) (amount total : Float) : List TxOut :=
  ⟨receiver, amount⟩ :: if total > amount then [⟨sender, total - amount⟩] else []

/-- Makes a payment of an amount from the owner of a private key to a receiver. It has no id until
it is in a block. -/
def make (c : Chain) (privateKey receiver : String) (amount : Float) :
    Except PaymentError Transaction :=
  if !amount.isFinite || amount ≤ 0 then .error (.invalidAmount amount)
  else
    match KeyPair.ofHex privateKey with
    | .error cause => .error (.invalidKey cause)
    | .ok key =>
      let sender := key.address
      if Text.equalIgnoringCase receiver sender then .error .sameAddress
      else
        match c.unspent sender with
        | [] => .error (.noFunds sender)
        | us =>
          let (chosen, total) := select amount us
          if total < amount then .error (.insufficientFunds amount total)
          else .ok ⟨"", chosen.map (signedInput key), outputs sender receiver amount total⟩

end Payment

end WorkLedger

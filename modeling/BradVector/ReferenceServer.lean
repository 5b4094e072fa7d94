import BradVector.Library.Commands
import Mathlib.Data.List.Basic

/-!
# The BMS reference server

The `pay/transfer` branch of `do_POST` in `reference_server.py`, one read or write of a field of
`STATE` at a time. `ThreadingHTTPServer` gives every connection a thread of its own, and there is no
lock: between two of its steps the others may take any number of theirs.
-/

namespace BradVector.Bms

/-- What `json.loads` returns. Of a float it is kept how it is written and whether it is zero. -/
inductive Json where
  | null
  | bool (b : Bool)
  | int (n : Int)
  | float (text : String) (isZero : Bool)
  | str (s : String)
  | array (items : List Json)
  | object (fields : List (String × Json))

/-- The truth value of a Python object. -/
def Json.truthy : Json → Bool
  | .null => false
  | .bool b => b
  | .int n => n ≠ 0
  | .float _ isZero => !isZero
  | .str s => s ≠ ""
  | .array items => !items.isEmpty
  | .object fields => !fields.isEmpty

/-- The value if `isinstance(v, int)`, which holds of `True` and `False` too. -/
def Json.asInt : Json → Option Int
  | .bool b => some (if b then 1 else 0)
  | .int n => some n
  | _ => none

def referenceUser : String := "demo@brad.dev"
def demoToken : String := "bms-demo-token"
def transferFeeCents : Int := 30

/-- An entry of `STATE.transactions`. -/
structure Txn where
  id : String
  /-- Written `from`. -/
  sender : String
  /-- Written `to`. -/
  recipient : Json
  amountCents : Int
  feeCents : Int
  ledgerBalanceCents : Int
  status : String
  created : String

/-- The fields of `State` that a transfer reads or writes. -/
structure State where
  walletCents : Int
  transactions : List Txn
  txnSeq : Nat

def State.init : State := ⟨150000, [], 0⟩

/-- What `_send` and `_err` send, or the exception that ends the thread. -/
inductive Response where
  | created (txn : Txn)
  | error (code message : String) (status : Nat)
  | raised

/-- A request for `/v1/pay/transfer`: the header `Authorization`, if it is there, and what
`json_body` makes of the body. -/
structure Request where
  authorization : Option String
  body : Option Json

/-- A transfer whose fields have been checked. -/
structure Transfer where
  /-- Written `to`. -/
  recipient : Json
  amt : Int

/-- What leaves the wallet. -/
def Transfer.cost (t : Transfer) : Int := t.amt + transferFeeCents

def badRequest : Response := .error "BAD_REQUEST" "to (str) and amount_cents (int>0) required" 400

/-- `not to or not isinstance(amt, int) or amt <= 0`. -/
def checkFields (recipient amt : Json) : Except Response Transfer :=
  if recipient.truthy then
    match amt.asInt with
    | none => .error badRequest
    | some n => if n ≤ 0 then .error badRequest else .ok ⟨recipient, n⟩
  else .error badRequest

/-- The part of the handler that touches no state. `body.get` is only there in a dictionary. -/
def parseTransfer (req : Request) : Except Response Transfer :=
  if req.authorization.getD "" ≠ "Bearer " ++ demoToken then
    .error (.error "AUTH_REQUIRED" "a Bearer token is required" 401)
  else
    match req.body with
    | none => checkFields .null .null
    | some body =>
        if body.truthy then
          match body with
          | .object fields =>
              checkFields ((fields.lookup "to").getD .null)
                ((fields.lookup "amount_cents").getD .null)
          | _ => .error .raised
        else checkFields .null .null

/-- `f"txn-{seq:06d}"`. -/
def txnId (seq : Nat) : String := "txn-" ++ String.ofList ((Nat.toDigits 10 seq).leftpad 6 '0')

/-- What a thread does next, with the values it has read. -/
inductive Thread where
  | received (req : Request)
  /-- `if amt + TRANSFER_FEE_CENTS > STATE.wallet_cents` -/
  | check (t : Transfer)
  /-- `STATE.wallet_cents -= amt + TRANSFER_FEE_CENTS`, the read and the write -/
  | readWallet (t : Transfer)
  | writeWallet (t : Transfer) (wallet : Int)
  /-- `STATE.txn_seq += 1`, the read and the write -/
  | readSeq (t : Transfer)
  | writeSeq (t : Transfer) (seq : Nat)
  /-- the fields of `STATE` that go into the transaction -/
  | readId (t : Transfer)
  | readBalance (t : Transfer) (id : String)
  /-- `STATE.transactions.append(txn)` -/
  | append (txn : Txn)
  | done (r : Response)

/-- One step of a thread, at the time `now`. -/
def serve (now : String) (s : State) : Thread → State × Thread
  | .received req =>
      match parseTransfer req with
      | .error r => (s, .done r)
      | .ok t => (s, .check t)
  | .check t =>
      if s.walletCents < t.cost then
        (s, .done (.error "BAD_REQUEST" "insufficient BradPay balance" 402))
      else (s, .readWallet t)
  | .readWallet t => (s, .writeWallet t s.walletCents)
  | .writeWallet t wallet => ({ s with walletCents := wallet - t.cost }, .readSeq t)
  | .readSeq t => (s, .writeSeq t s.txnSeq)
  | .writeSeq t seq => ({ s with txnSeq := seq + 1 }, .readId t)
  | .readId t => (s, .readBalance t (txnId s.txnSeq))
  | .readBalance t id =>
      (s, .append
        { id
          sender := referenceUser
          recipient := t.recipient
          amountCents := t.amt
          feeCents := transferFeeCents
          ledgerBalanceCents := s.walletCents
          status := "SETTLED"
          created := now })
  | .append txn => ({ s with transactions := s.transactions ++ [txn] }, .done (.created txn))
  | .done r => (s, .done r)

/-- The state and the threads that have been started. -/
structure Server where
  state : State
  threads : List Thread

def Server.start : Server := ⟨.init, []⟩

inductive Event where
  | accept (req : Request)
  | advance (k : Nat) (now : String)

def Server.next (c : Server) : Event → Server
  | .accept req => { c with threads := c.threads ++ [.received req] }
  | .advance k now =>
      match c.threads[k]? with
      | none => c
      | some t =>
          { state := (serve now c.state t).1
            threads := c.threads.set k (serve now c.state t).2 }

def Server.run (events : List Event) : Server := events.foldl Server.next .start

end BradVector.Bms

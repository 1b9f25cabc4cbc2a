import TxCache.Net.Wire

/-!
# Messages on a connection

A message is its rpc code, one byte, and then its arguments as a nested section: `RPC_Start` puts
the code and begins the section, and `RPC_Send` ends it (`lib/rpc.c`). `RPC_DecodeMsg` reads one
message back from the input buffer of a connection, and the loop of `RPCOnReadable` decodes message
after message from it and hands each to the handler that the table of the connection holds for its
code, until no complete message is left.

A message that its sender wrote decodes to its code and to arguments that read back as what was put
(`decodeMsg_encode`). Other bytes need not: the length of the argument section is an `int32_t` that
`IOBuf_TryGetBytes` takes as a `size_t`, so a negative length moves the position backwards. Five
bytes, the code `0` and the length `-5`, decode to a message that ends where it starts, and the loop
decodes it again and again (`negLength_loops`). A zero length passes as a string, its terminator
being the last byte of its own length (`Reads.tryGetString_zero`). The table is indexed by
`(int)rpc` of a `char`, which is signed on the machines the code is built for, so a code from `0x80`
up reads before the table (`highCode_outOfBounds`).

## What is not modelled

`RPC_FillIn` and `IOBuf_Shift` around the loop, and what a handler does: the handlers never read the
input buffer of the connection, so the loop is the list of calls it makes. A handler that closes the
connection ends the loop early; that is left out.
-/

namespace TxCache

open Bytes IOBuf

namespace Rpc

/-- `RPC_DecodeMsg`: the code and a view of the arguments, or `none` in the second component when
no complete message is left, the position put back where it was. -/
def decodeMsg (b : IOBuf) : Option (IOBuf × Option (BitVec 8 × IOBuf)) :=
  let pos := b.getPos
  (b.tryGetInt8).bind fun (b₁, rpc) ↦
    match rpc with
    | none => (b₁.setPos pos).map fun b ↦ (b, none)
    | some rpc =>
      (b₁.tryGetNested).bind fun (b₂, args) ↦
        match args with
        | none => (b₂.setPos pos).map fun b ↦ (b, none)
        | some args => some (b₂, some (rpc, args))

variable {α : Type*}

/-- `handlers[i]` of a `handler_t handlers[256]`: `none` for an index outside the table, which the
code does not check. -/
def handlerAt (handlers : Fin 256 → Option α) (i : ℤ) : Option (Option α) :=
  if h : 0 ≤ i ∧ i < 256 then some (handlers ⟨i.toNat, by omega⟩) else none

/-- How the loop of `RPCOnReadable` ends. -/
inductive Received (α : Type*) where
  /-- No complete message is left: the handlers called, in order, with their arguments. -/
  | stopped (b : IOBuf) (calls : List (α × IOBuf))
  | panic
  /-- `handlers[i]` is read outside the table. -/
  | outOfBounds (i : ℤ)
  /-- The loop has not ended after the rounds given. -/
  | running
deriving DecidableEq

/-- A handler called before the rest of the loop. -/
def Received.cons (c : α × IOBuf) : Received α → Received α
  | .stopped b calls => .stopped b (c :: calls)
  | r => r

/-- The loop of `RPCOnReadable`, for at most `fuel` messages. A code without a handler only draws a
`Warning`. -/
def receive (handlers : Fin 256 → Option α) : ℕ → IOBuf → Received α
  | 0, _ => .running
  | fuel + 1, b =>
    match decodeMsg b with
    | none => .panic
    | some (b', none) => .stopped b' []
    | some (b', some (rpc, args)) =>
      match handlerAt handlers rpc.toInt with
      | none => .outOfBounds rpc.toInt
      | some none => receive handlers fuel b'
      | some (some f) => (receive handlers fuel b').cons (f, args)

/-- `Server_Reqs`: the requests the cache server registers a handler for. -/
inductive ServerReq
  | lookup
  | put
  | stats
  | inval
  | sig
deriving DecidableEq, Repr

/-- The code of each request. -/
def ServerReq.code : ServerReq → ℕ
  | .lookup => 'L'.toNat
  | .put => 'P'.toNat
  | .stats => 'T'.toNat
  | .inval => 'I'.toNat
  | .sig => 'S'.toNat

/-- The table that the `RPCS_RegisterHandler` calls of the server's `main` fill. -/
def serverHandlers (i : Fin 256) : Option ServerReq :=
  [ServerReq.lookup, .put, .stats, .inval, .sig].find? (·.code = i.val)

/-! ## Decoding what was sent -/

theorem decodeMsg_eq {b b₁ b₂ args : IOBuf} {rpc : BitVec 8}
    (h₁ : b.tryGetInt8 = some (b₁, some rpc)) (h₂ : b₁.tryGetNested = some (b₂, some args)) :
    decodeMsg b = some (b₂, some (rpc, args)) := by
  rw [decodeMsg, h₁, Option.bind_some]
  dsimp only
  rw [h₂, Option.bind_some]

theorem decodeMsg_encode {r : IOBuf} {rpc : BitVec 8} {items : List Item} {ys : List UInt8}
    (h : Reads r ((Item.int8 rpc).encode ++ (Item.nested items).encode ++ ys))
    (hwf : (Item.nested items).wellFormed = true) :
    ∃ args, decodeMsg r = some ({ r with pos := r.pos + 1 + (Item.nested items).encode.length },
        some (rpc, args)) ∧
      Item.getAll args items = some ({ args with pos := args.limit }, items) := by
  have hwf' := (Item.wellFormed_nested items).mp hwf
  rw [List.append_assoc] at h
  have hcode : r.tryGetInt8 = some ({ r with pos := r.pos + 1 }, some rpc) :=
    Reads.tryGetWord_ofNat (n := 1) h
  have hargs := h.drop
  rw [Item.encode, Item.encode, length_toLE] at hargs
  obtain ⟨hview, hlimit⟩ := hargs.view hwf'.2
  have hview' : Reads (initView r.mem r.base (r.pos + 1 + 4) (Item.encodeAll items).length)
      (Item.encodeAll items ++ []) := by
    rw [List.append_nil]
    exact hview
  have hnested : ({ r with pos := r.pos + 1 } : IOBuf).tryGetNested =
      some ({ r with pos := r.pos + 1 + (Item.nested items).encode.length },
        some (initView r.mem r.base (r.pos + 1 + 4) (Item.encodeAll items).length)) := by
    rw [hargs.tryGetNested hwf'.2]
    simp only [Item.encode, List.length_append, length_toLE, Option.some.injEq, Prod.mk.injEq,
      IOBuf.mk.injEq, and_true, true_and]
    omega
  refine ⟨_, decodeMsg_eq hcode hnested, ?_⟩
  rw [IOBuf.Reads.getItems items hview' hwf'.1, ← hlimit]

/-! ## The loop -/

@[simp] theorem running_cons (c : α × IOBuf) : (Received.running : Received α).cons c = .running :=
  rfl

theorem handlerAt_of_lt {handlers : Fin 256 → Option α} {i : ℤ} (h₀ : 0 ≤ i) (h₁ : i < 256) :
    handlerAt handlers i = some (handlers ⟨i.toNat, by omega⟩) := by
  rw [handlerAt, dif_pos ⟨h₀, h₁⟩]

theorem receive_of_decodeMsg_self (handlers : Fin 256 → Option α) {b args : IOBuf}
    {rpc : BitVec 8} (hdec : decodeMsg b = some (b, some (rpc, args)))
    (h₀ : 0 ≤ rpc.toInt) (h₁ : rpc.toInt < 256) :
    ∀ fuel, receive handlers fuel b = .running
  | 0 => rfl
  | fuel + 1 => by
    have ih := receive_of_decodeMsg_self handlers hdec h₀ h₁ fuel
    rw [receive, hdec]
    dsimp only
    rw [handlerAt_of_lt h₀ h₁]
    cases handlers ⟨rpc.toInt.toNat, by omega⟩ with
    | none => exact ih
    | some f =>
      show (receive handlers fuel b).cons (f, args) = .running
      rw [ih, running_cons]

/-- The code `0` and the argument length `-5`. -/
def negLengthMsg : List UInt8 := [0x00, 0xFB, 0xFF, 0xFF, 0xFF]

/-- The message of `negLengthMsg` decodes to a view whose limit lies before its position, and the
position goes back to where the message starts: the loop of the cache server decodes it for ever. -/
theorem negLength_loops :
    decodeMsg (initView negLengthMsg 4096 4096 5) =
      some (initView negLengthMsg 4096 4096 5,
        some (0, initView negLengthMsg 4096 4101 (2 ^ 64 - 5))) ∧
    ∀ fuel, receive serverHandlers fuel (initView negLengthMsg 4096 4096 5) = .running := by
  have hdec : decodeMsg (initView negLengthMsg 4096 4096 5) =
      some (initView negLengthMsg 4096 4096 5,
        some (0, initView negLengthMsg 4096 4101 (2 ^ 64 - 5))) := by
    decide
  exact ⟨hdec, receive_of_decodeMsg_self serverHandlers hdec (by decide) (by decide)⟩

/-- The code `0x80` with an empty argument section. -/
def highCodeMsg : List UInt8 := [0x80, 0x00, 0x00, 0x00, 0x00]

/-- The code `0x80` is `-128` as a `char`, and the loop reads `handlers[-128]`. -/
theorem highCode_outOfBounds (fuel : ℕ) :
    receive serverHandlers (fuel + 1) (initView highCodeMsg 4096 4096 5) = .outOfBounds (-128) := by
  have hdec : decodeMsg (initView highCodeMsg 4096 4096 5) =
      some ({ initView highCodeMsg 4096 4096 5 with pos := 4101 },
        some (0x80, initView highCodeMsg 4096 4101 0)) := by
    decide
  have hcode : (0x80 : BitVec 8).toInt = -128 := by decide
  rw [receive, hdec]
  dsimp only
  rw [hcode, handlerAt, dif_neg (by omega)]

end Rpc

end TxCache

/-
  RampRdma.Net.Calls — the requests and answers of the four modes as messages: what a handler
  gives `Communicator::send`, which branch of the executor's `run` takes it and into which
  variables, and the same for the answer.

  MessagePack is a parameter (`Packing`): what `pack` makes of a value, the unpacker takes for it.
  `streaming` is one, over the formats of `Wire`. The handler looks at no header: what an
  answer is taken for depends on the request.
  - `Mode`: a handler and the executor for it, with the law that each takes the other's
    messages for what they are, and leaves nothing in its unpacker.
  - `ramp`, `locking`, `nocc`: the pairs `Server::start` and the clients make.
-/

import Mathlib
import RampRdma.Lib.MsgpackStream
import RampRdma.Locking.System
import RampRdma.Net.Communicator
import RampRdma.Net.Link
import RampRdma.Ramp.System

namespace RampRdma.Calls

open Communicator

/-! ## The arguments -/

/-- The types of the arguments. -/
inductive Ty where
  | key
  | timestamp
  | item
  | rka
  deriving DecidableEq

abbrev Val : Ty → Type
  | .key => Key
  | .timestamp => Timestamp
  | .item => Item
  | .rka => Verbs.RemoteKeyAndAddr

structure Packing (Obj : Type) where
  unpacker : Unpacker Obj Ty Val
  pack : (t : Ty) → Val t → List UInt8
  encoded : ∀ t v, (pack t v).length ≤ PACKET_SIZE → Encoded unpacker (pack t v) [⟨t, v⟩]

variable {Obj : Type}

/-- One argument of `unpack_args`. -/
def unpack_arg (U : Unpacker Obj Ty Val) (t : Ty) (first : Val t) (unpk : List UInt8) : Val t × List UInt8 :=
  match U.next unpk with
  | .object obj unpk => (U.convert t obj first, unpk)
  | .incomplete => (U.convert t U.nil first, unpk)
  | .parse_error unpk => (first, unpk)

theorem unpack_args_cons (U : Unpacker Obj Ty Val) (unpk : List UInt8) (t : Ty) (first : Val t) (rest : List (Arg Val)) :
    unpack_args U unpk (⟨t, first⟩ :: rest) =
      (⟨t, (unpack_arg U t first unpk).1⟩ :: (unpack_args U (unpack_arg U t first unpk).2 rest).1,
        (unpack_args U (unpack_arg U t first unpk).2 rest).2) := by
  cases h : U.next unpk <;> simp only [unpack_args, unpack_arg, h]

variable (P : Packing Obj)

theorem unpack_arg_pack {t : Ty} {v : Val t} (h : (P.pack t v).length ≤ PACKET_SIZE) (first : Val t) (rest : List UInt8) :
    unpack_arg P.unpacker t first (P.pack t v ++ rest) = (v, rest) := by
  have he : unpack_args P.unpacker (P.pack t v ++ rest) [⟨t, first⟩] = ([⟨t, v⟩], rest) :=
    unpack_args_encoded (P.encoded t v h) rest rfl
  rw [unpack_args_cons] at he
  simp only [unpack_args, Prod.mk.injEq, List.cons.injEq, and_true] at he
  obtain ⟨h1, h2⟩ := he
  exact Prod.ext (eq_of_heq (Sigma.mk.inj h1).2) h2

theorem unpack_arg_last {t : Ty} {v : Val t} (h : (P.pack t v).length ≤ PACKET_SIZE) (first : Val t) :
    unpack_arg P.unpacker t first (P.pack t v) = (v, []) := by
  have := unpack_arg_pack P h first []
  rwa [List.append_nil] at this

/-! ## A streaming unpacker -/

section
open Msgpack

theorem two_lt : 2 < 2 ^ 32 := by decide

def rka : Format Verbs.RemoteKeyAndAddr :=
  transport (record 2 two_lt (pair uint32 uint64)) (fun r => (r.rkey, r.remote_addr)) (fun p => some ⟨p.1, p.2⟩) fun _ => rfl

def format : (t : Ty) → Format (Val t)
  | .key => Wire.str
  | .timestamp => Wire.timestamp
  | .item => Wire.item
  | .rka => rka

theorem objects_str : Objects 1 Wire.str := objects_transport (objects_bytes heads_str)

theorem objects_timestamp : Objects 1 Wire.timestamp :=
  objects_transport (objects_record (objects_pair objects_int64 objects_int64))

theorem objects_item : Objects 1 Wire.item := by
  have hvalues : Objects 1 (Wire.map Wire.bin) :=
    objects_transport (objects_many heads_map (objects_pair objects_str (objects_bytes heads_bin)))
  have hkeys : Objects 1 Wire.set := objects_transport (objects_many heads_array objects_str)
  exact objects_transport (objects_record (objects_pair objects_str (objects_pair hvalues (objects_pair objects_timestamp hkeys))))

theorem objects_rka : Objects 1 rka := by
  have hpair : Objects (1 + 1) (pair uint32 uint64) := objects_pair objects_uint32 objects_uint64
  exact objects_transport (objects_record hpair)

theorem objects_format (t : Ty) : Objects 1 (format t) := by
  cases t with
  | key => exact objects_str
  | timestamp => exact objects_timestamp
  | item => exact objects_item
  | rka => exact objects_rka

def next (bs : List UInt8) : Next (List UInt8) :=
  match scan (.head, 1) bs with
  | .whole rest => .object (bs.take (bs.length - rest.length)) rest
  | .short => .incomplete
  | .bad rest => .parse_error rest

theorem next_whole {c rest : List UInt8} (h : scan (.head, 1) (c ++ rest) = .whole rest) : next (c ++ rest) = .object c rest := by
  have hl : (c ++ rest).length - rest.length = c.length := by rw [List.length_append]; omega
  rw [next, h]
  simp only [hl, List.take_left']

/-- An object is its bytes, which are looked into when it is converted. -/
def unpacker : Unpacker (List UInt8) Ty Val where
  nil := [0xc0]
  next := next
  convert t obj first :=
    match (format t).unpack obj with
    | some (v, []) => v
    | _ => first
  front h := by
    unfold next at h
    split at h <;> cases h
    rename_i hs
    obtain ⟨c, rfl, hc⟩ := scan_front hs
    refine ⟨c, rfl, fun r => ?_⟩
    rw [next_whole (hc r)]
    simp

def streaming : Packing (List UInt8) where
  unpacker := unpacker
  pack t := (format t).pack
  encoded t v h := by
    have hlt : ((format t).pack v).length < 2 ^ 32 := by simp only [PACKET_SIZE] at h; omega
    have hc : Code unpacker ((format t).pack v) ((format t).pack v) := fun rest => by
      refine next_whole ?_
      rw [objects_format t v rest 0 hlt, scan]
    have hu := (format t).unpack_pack v [] hlt
    rw [List.append_nil] at hu
    have hv : ∀ first, unpacker.convert t ((format t).pack v) first = v := fun first => by simp only [unpacker, hu]
    have := Encoded.cons hc hv .nil
    rwa [List.append_nil] at this

end

/-! ## A handler and its executor -/

/-- `Vars` are what the handler's variables hold. -/
structure Mode (Req Ans Vars : Type) where
  /-- What the handler sends. -/
  request : Req → Message
  sends : Req → Bool
  /-- The branch of `run`, and `recv_body` there, with what is in the unpacker; `none` is the last branch. -/
  recv : List UInt8 → RawHeader → List UInt8 → Option Req × List UInt8
  answers : Req → Ans → Bool
  answer : Ans → Message
  /-- The handler's `recv`, with the arguments it has after that request. -/
  result : Req → Vars → List UInt8 → List UInt8 → Ans × List UInt8
  recv_request : ∀ r, sends r = true → (request r).body.length ≤ PACKET_SIZE →
    recv [] (request r).delivered.1 (request r).delivered.2 = (some r, [])
  recv_close : recv [] (⟨.CLOSE, []⟩ : Message).delivered.1 [] = (none, [])
  result_answer : ∀ r a vars, answers r a = true → (answer a).body.length ≤ PACKET_SIZE →
    result r vars [] (answer a).body = (a, [])

/-- `recv_body(body_size, &first, &second)`. -/
def unpack_two (U : Unpacker Obj Ty Val) (t t' : Ty) (first : Val t) (second : Val t') (unpk : List UInt8) :
    Val t × Val t' × List UInt8 :=
  let (v, unpk) := unpack_arg U t first unpk
  let (v', unpk) := unpack_arg U t' second unpk
  (v, v', unpk)

theorem unpack_two_pack {t t' : Ty} {v : Val t} {v' : Val t'} (h : (P.pack t v ++ P.pack t' v').length ≤ PACKET_SIZE)
    (first : Val t) (second : Val t') :
    unpack_two P.unpacker t t' first second (P.pack t v ++ P.pack t' v') = (v, v', []) := by
  rw [List.length_append] at h
  simp only [unpack_two]
  rw [unpack_arg_pack P (by omega)]
  simp only
  rw [unpack_arg_last P (by omega)]

/-! ## RAMP-Fast and AC-RAMP-Fast -/

namespace RAMPFast

open Ramp

/-- `Communicator::send` in `RAMPFastHandler` and `ACRAMPFastHandler`. -/
def request : Request → Message
  | .PREPARE item => ⟨.PREPARE, P.pack .item item⟩
  | .COMMIT ts => ⟨.COMMIT, P.pack .timestamp ts⟩
  | .GET key ts => ⟨.GET, P.pack .key key ++ P.pack .timestamp ts⟩
  | .GET_WITH_ADDR key ts => ⟨.GET_WITH_ADDR, P.pack .key key ++ P.pack .timestamp ts⟩

/-- The requests of the handler. -/
def sends (ac : Bool) : Request → Bool
  | .GET_WITH_ADDR _ _ => ac
  | _ => true

/-- `RAMPFastExecutor::run`, and `ACRAMPFastExecutor::run` with the branch that only it has. -/
def recv (ac : Bool) (unpk : List UInt8) (header : RawHeader) (body : List UInt8) : Option Request × List UInt8 :=
  if header.req_type = MessageType.PREPARE.code then
    let (item, unpk) := unpack_arg P.unpacker .item .empty (unpk ++ body)
    (some (.PREPARE item), unpk)
  else if header.req_type = MessageType.COMMIT.code then
    let (ts_c, unpk) := unpack_arg P.unpacker .timestamp .empty (unpk ++ body)
    (some (.COMMIT ts_c), unpk)
  else if header.req_type = MessageType.GET.code then
    let (key, ts_req, unpk) := unpack_two P.unpacker .key .timestamp "" .empty (unpk ++ body)
    (some (.GET key ts_req), unpk)
  else if ac ∧ header.req_type = MessageType.GET_WITH_ADDR.code then
    let (key, ts_req, unpk) := unpack_two P.unpacker .key .timestamp "" .empty (unpk ++ body)
    (some (.GET_WITH_ADDR key ts_req), unpk)
  else (none, unpk ++ body)

abbrev CACHE_SIZE : Nat := ENTRY_NUM * ENTRY_SIZE

/-- What `prepare`, `commit`, `get` and `get_item_and_addr` send, for an address in the cache. -/
def answers : Request → Answer → Bool
  | .PREPARE _, .DONE => true
  | .COMMIT _, .DONE => true
  | .GET _ _, .RESULT _ => true
  | .GET_WITH_ADDR _ _, .RESULT_ADDR _ addr => addr < CACHE_SIZE
  | _, _ => false

variable (rkey : UInt32) (cache_addr : Nat)

/-- `rkey` is that of the cache, which begins at `cache_addr`. -/
def answer : Answer → Message
  | .DONE => ⟨.DONE, []⟩
  | .RESULT item => ⟨.RESULT, P.pack .item item⟩
  | .RESULT_ADDR item addr => ⟨.RESULT, P.pack .item item ++ P.pack .rka ⟨rkey, UInt64.ofNat (cache_addr + addr)⟩⟩

/-- `ret[key]` and `this->addr_cache[key]`. -/
structure Vars where
  ret : Item
  addr_cache : Verbs.RemoteKeyAndAddr

/-- `com->recv()`, `com->recv(&ret[key])` and `com->recv(&ret[key], &this->addr_cache[key])`. -/
def result (vars : Vars) (unpk body : List UInt8) : Request → Answer × List UInt8
  | .PREPARE _ | .COMMIT _ => (.DONE, unpk ++ body)
  | .GET _ _ =>
    let (item, unpk) := unpack_arg P.unpacker .item vars.ret (unpk ++ body)
    (.RESULT item, unpk)
  | .GET_WITH_ADDR _ _ =>
    let (item, rka, unpk) := unpack_two P.unpacker .item .rka vars.ret vars.addr_cache (unpk ++ body)
    (.RESULT_ADDR item (rka.remote_addr.toNat - cache_addr), unpk)

end RAMPFast

open RAMPFast in
/-- The cache lies in the address space. -/
def ramp (ac : Bool) (rkey : UInt32) (cache_addr : Nat) (hc : cache_addr + CACHE_SIZE ≤ 2 ^ 64) :
    Mode Ramp.Request Ramp.Answer Vars where
  request := request P
  sends := sends ac
  recv := recv P ac
  answers := answers
  answer := answer P rkey cache_addr
  result r vars unpk body := result P cache_addr vars unpk body r
  recv_request r hs h := by
    cases r with
    | PREPARE item =>
      simp only [recv, request, Message.delivered, MessageType.code, if_true, List.nil_append]
      rw [unpack_arg_last P h]
    | COMMIT ts =>
      simp only [recv, request, Message.delivered, MessageType.code, if_true, List.nil_append]
      rw [unpack_arg_last P h]
      rfl
    | GET key ts =>
      simp only [recv, request, Message.delivered, MessageType.code, if_true, List.nil_append]
      rw [unpack_two_pack P h]
      rfl
    | GET_WITH_ADDR key ts =>
      have hs : ac = true := hs
      simp only [recv, request, Message.delivered, MessageType.code, hs, and_self, if_true, List.nil_append]
      rw [unpack_two_pack P h]
      rfl
  recv_close := by
    simp [recv, Message.delivered, MessageType.code]
  result_answer r a vars hr h := by
    cases r <;> cases a <;> first | cases hr | skip
    case PREPARE.DONE => rfl
    case COMMIT.DONE => rfl
    case GET.RESULT key ts item =>
      simp only [result, answer, List.nil_append]
      rw [unpack_arg_last P h]
    case GET_WITH_ADDR.RESULT_ADDR key ts item addr =>
      have hr : addr < CACHE_SIZE := by simpa [answers] using hr
      simp only [result, answer, List.nil_append]
      rw [unpack_two_pack P h]
      simp only [UInt64.toNat_ofNat', Prod.mk.injEq, and_true, Ramp.Answer.RESULT_ADDR.injEq, true_and]
      omega

/-! ## TWO_PHASE_LOCKING and NO_CONCURRENCY_CONTROL -/

namespace LockBased

inductive Request where
  | PUT (item : Item)
  | GET (key : Key)
  | RELEASE_LOCKS
  deriving DecidableEq

def request : Request → Message
  | .PUT item => ⟨.PUT, P.pack .item item⟩
  | .GET key => ⟨.GET, P.pack .key key⟩
  | .RELEASE_LOCKS => ⟨.RELEASE_LOCKS, []⟩

/-- `LockBasedExecutor::run`. -/
def recv (unpk : List UInt8) (header : RawHeader) (body : List UInt8) : Option Request × List UInt8 :=
  if header.req_type = MessageType.PUT.code then
    let (item, unpk) := unpack_arg P.unpacker .item .empty (unpk ++ body)
    (some (.PUT item), unpk)
  else if header.req_type = MessageType.GET.code then
    let (key, unpk) := unpack_arg P.unpacker .key "" (unpk ++ body)
    (some (.GET key), unpk)
  else if header.req_type = MessageType.RELEASE_LOCKS.code then (some .RELEASE_LOCKS, unpk ++ body)
  else (none, unpk ++ body)

end LockBased

namespace NoCC

inductive Request where
  | PREPARE (item : Item)
  | COMMIT (ts : Timestamp)
  | GET (key : Key)
  deriving DecidableEq

def request : Request → Message
  | .PREPARE item => ⟨.PREPARE, P.pack .item item⟩
  | .COMMIT ts => ⟨.COMMIT, P.pack .timestamp ts⟩
  | .GET key => ⟨.GET, P.pack .key key⟩

/-- `NoCCExecutor::run`. -/
def recv (unpk : List UInt8) (header : RawHeader) (body : List UInt8) : Option Request × List UInt8 :=
  if header.req_type = MessageType.PREPARE.code then
    let (item, unpk) := unpack_arg P.unpacker .item .empty (unpk ++ body)
    (some (.PREPARE item), unpk)
  else if header.req_type = MessageType.COMMIT.code then
    let (ts_c, unpk) := unpack_arg P.unpacker .timestamp .empty (unpk ++ body)
    (some (.COMMIT ts_c), unpk)
  else if header.req_type = MessageType.GET.code then
    let (key, unpk) := unpack_arg P.unpacker .key "" (unpk ++ body)
    (some (.GET key), unpk)
  else (none, unpk ++ body)

end NoCC

/-- `com->send(DONE)` and `com->send(RESULT, item)`, in these two modes. -/
def answer : Locking.Answer → Message
  | .DONE => ⟨.DONE, []⟩
  | .RESULT item => ⟨.RESULT, P.pack .item item⟩

/-- `com->recv()` and `com->recv(&ret[key])`. -/
def result (read : Bool) (ret : Item) (unpk body : List UInt8) : Locking.Answer × List UInt8 :=
  if read then
    let (item, unpk) := unpack_arg P.unpacker .item ret (unpk ++ body)
    (.RESULT item, unpk)
  else (.DONE, unpk ++ body)

def answers (read : Bool) : Locking.Answer → Bool
  | .DONE => !read
  | .RESULT _ => read

theorem result_answer {read : Bool} {a : Locking.Answer} (ha : answers read a = true)
    (h : (answer P a).body.length ≤ PACKET_SIZE) (ret : Item) : result P read ret [] (answer P a).body = (a, []) := by
  cases a with
  | DONE =>
    cases read with
    | false => rfl
    | true => cases ha
  | RESULT item =>
    cases read with
    | false => cases ha
    | true =>
      simp only [result, answer, if_true, List.nil_append]
      rw [unpack_arg_last P h]

def LockBased.reads : LockBased.Request → Bool
  | .GET _ => true
  | _ => false

def NoCC.reads : NoCC.Request → Bool
  | .GET _ => true
  | _ => false

open LockBased in
def locking : Mode LockBased.Request Locking.Answer Item where
  request := request P
  sends _ := true
  recv := recv P
  answers r := answers (reads r)
  answer := answer P
  result r := result P (reads r)
  recv_request r _ h := by
    cases r with
    | PUT item =>
      simp only [recv, request, Message.delivered, if_true, List.nil_append]
      rw [unpack_arg_last P h]
    | GET key =>
      simp only [recv, request, Message.delivered, MessageType.code, if_true, List.nil_append]
      rw [unpack_arg_last P h]
      rfl
    | RELEASE_LOCKS => rfl
  recv_close := rfl
  result_answer _ _ ret ha h := result_answer P ha h ret

open NoCC in
def nocc : Mode NoCC.Request Locking.Answer Item where
  request := request P
  sends _ := true
  recv := recv P
  answers r := answers (reads r)
  answer := answer P
  result r := result P (reads r)
  recv_request r _ h := by
    cases r with
    | PREPARE item =>
      simp only [recv, request, Message.delivered, if_true, List.nil_append]
      rw [unpack_arg_last P h]
    | COMMIT ts =>
      simp only [recv, request, Message.delivered, MessageType.code, if_true, List.nil_append]
      rw [unpack_arg_last P h]
      rfl
    | GET key =>
      simp only [recv, request, Message.delivered, MessageType.code, if_true, List.nil_append]
      rw [unpack_arg_last P h]
      rfl
  recv_close := rfl
  result_answer _ _ ret ha h := result_answer P ha h ret

end RampRdma.Calls

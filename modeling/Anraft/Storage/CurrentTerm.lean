import Anraft.Base.LittleEndian
import Anraft.Base.Machine
import Anraft.Proto

/-!
# The persisted term

`SetCurrentTerm` stores the eight bytes of a term under one key, and
`GetCurrentTerm` copies eight bytes back. Only `NotFound` is told from success: after
any other failure the copy starts at the terminator of an empty string.
-/

namespace Anraft

open LittleEndian

namespace RocksDB

/-- What the log asks of a `rocksdb::Status`. -/
inductive Status where
  | ok
  | notFound
  | other (code : ℕ)
deriving DecidableEq, Repr

end RocksDB

/-- The calls of `rocksdb::DB` that `RaftLog` makes. -/
structure RocksDB (σ : Type*) where
  /-- `Get(options, key, &value)`, which is given the value of the string and leaves it
  with another. -/
  get : σ → Bytes → Bytes → (RocksDB.Status × Bytes) × σ
  /-- `Put(options, key, value)`. -/
  put : σ → Bytes → Bytes → RocksDB.Status × σ

namespace RaftLog

variable {σ : Type*} {db : RocksDB σ}

def kCurrentTerm : Bytes :=
  ['C', 'U', 'R', 'R', 'E', 'N', 'T', 'T', 'E', 'R', 'M'].map Char.toUInt8

/-- `memcpy(buf, &current_term, sizeof(uint64_t))`, on a little-endian machine. -/
def termBytes (t : UInt64) : Bytes := bytesOf 8 t.toNat

/-- `memcpy(&ans, bytes, sizeof(uint64_t))`. -/
def termOfBytes (bytes : Bytes) : UInt64 := UInt64.ofNat (ofBytes bytes)

/-- The eight bytes from `buf.data()` on: the string, its terminator, and what lies
behind that. -/
def eightBytes (buf : Bytes) (behind : Fin 7 → UInt8) : Bytes :=
  (buf ++ 0 :: List.ofFn behind).take 8

def getCurrentTerm (db : RocksDB σ) (behind : Fin 7 → UInt8) (log : σ) : UInt64 × σ :=
  let ((status, buf), log) := db.get log kCurrentTerm []
  if status = .notFound then (0, log)
  else (termOfBytes (eightBytes buf behind), log)

def setCurrentTerm (db : RocksDB σ) (log : σ) (currentTerm : UInt64) : σ :=
  (db.put log kCurrentTerm (termBytes currentTerm)).2

/-! ## Terms as bytes -/

theorem length_termBytes (t : UInt64) : (termBytes t).length = 8 := length_bytesOf _ _

/-- Eight bytes stand for a term exactly when they are its bytes. -/
theorem termOfBytes_eq_iff {bytes : Bytes} {t : UInt64} (h : bytes.length = 8) :
    termOfBytes bytes = t ↔ bytes = termBytes t := by
  have hlt : ofBytes bytes < 2 ^ 64 := by
    have := ofBytes_lt bytes
    rw [h] at this
    exact this
  rw [← UInt64.toNat_inj, termOfBytes, UInt64.toNat_ofNat_of_lt' hlt]
  exact ofBytes_eq_iff h t.toNat_lt

@[simp] theorem termOfBytes_termBytes (t : UInt64) : termOfBytes (termBytes t) = t :=
  (termOfBytes_eq_iff (length_termBytes t)).mpr rfl

theorem eightBytes_termBytes (t : UInt64) (behind : Fin 7 → UInt8) :
    eightBytes (termBytes t) behind = termBytes t :=
  List.take_left' (length_termBytes t)

theorem eightBytes_nil (behind : Fin 7 → UInt8) :
    eightBytes [] behind = 0 :: List.ofFn behind := by
  unfold eightBytes
  rw [List.nil_append, List.take_of_length_le]
  simp

/-! ## Runs -/

/-- The log between two calls. `lastPut` and `lastSet` are ghost fields: the bytes of the
last successful `Put`, and the term it stored. -/
structure TermLog (σ : Type*) where
  log : σ
  lastPut : Option Bytes := none
  lastSet : Option UInt64 := none

inductive TermCall where
  | setCurrentTerm (currentTerm : UInt64)
  | getCurrentTerm (behind : Fin 7 → UInt8)

namespace TermLog

def serve (db : RocksDB σ) (s : TermLog σ) : TermCall → TermLog σ
  | .setCurrentTerm t =>
    let stored := (db.put s.log kCurrentTerm (termBytes t)).1 = .ok
    { log := setCurrentTerm db s.log t
      lastPut := if stored then some (termBytes t) else s.lastPut
      lastSet := if stored then some t else s.lastSet }
  | .getCurrentTerm behind => { s with log := (RaftLog.getCurrentTerm db behind s.log).2 }

/-- How `Get` answers next, and what it leaves in the string. -/
def answer (db : RocksDB σ) (s : TermLog σ) : RocksDB.Status × Bytes :=
  (db.get s.log kCurrentTerm []).1

end TermLog

abbrev termMachine (db : RocksDB σ) : Machine (TermLog σ) TermCall := .ofFun (TermLog.serve db)

/-- **What is relied on**, in every run from `s`: a successful `Get` returns the bytes of the
last successful `Put`, and a failed one leaves the string empty. -/
structure Keeps (db : RocksDB σ) (s : TermLog σ) : Prop where
  get_ok : ∀ calls : List TermCall, ((calls.foldl (TermLog.serve db) s).answer db).1 = .ok →
    (calls.foldl (TermLog.serve db) s).lastPut =
      some ((calls.foldl (TermLog.serve db) s).answer db).2
  get_failed : ∀ calls : List TermCall, ((calls.foldl (TermLog.serve db) s).answer db).1 ≠ .ok →
    ((calls.foldl (TermLog.serve db) s).answer db).2 = []

/-- The term that is read is the last one stored, or zero where none has been stored or
the read has failed. -/
def TellsStored (db : RocksDB σ) (s : TermLog σ) : TermCall → Prop
  | .setCurrentTerm _ => True
  | .getCurrentTerm behind =>
    s.lastSet = some (getCurrentTerm db behind s.log).1 ∨
      ((getCurrentTerm db behind s.log).1 = 0 ∧ (s.lastSet = none ∨ (s.answer db).1 ≠ .ok))

/-- If the read fails and not with `NotFound`, the terminator and what lies behind it are
the bytes of zero or of the last stored term. -/
def FindsStored (db : RocksDB σ) (s : TermLog σ) : TermCall → Prop
  | .setCurrentTerm _ => True
  | .getCurrentTerm behind =>
    (s.answer db).1 ≠ .ok → (s.answer db).1 ≠ .notFound →
      0 :: List.ofFn behind = termBytes 0 ∨
        ∃ t, s.lastSet = some t ∧ 0 :: List.ofFn behind = termBytes t

variable {s : TermLog σ}

theorem Keeps.serve (h : Keeps db s) (c : TermCall) : Keeps db (s.serve db c) where
  get_ok calls := h.get_ok (c :: calls)
  get_failed calls := h.get_failed (c :: calls)

theorem getCurrentTerm_fst (db : RocksDB σ) (behind : Fin 7 → UInt8) (s : TermLog σ) :
    (getCurrentTerm db behind s.log).1 =
      if (s.answer db).1 = .notFound then 0
      else termOfBytes (eightBytes (s.answer db).2 behind) := by
  unfold getCurrentTerm TermLog.answer
  dsimp only
  split <;> rfl

/-- The stored bytes are those of the stored term. -/
def Encoded (s : TermLog σ) : Prop := s.lastPut = s.lastSet.map termBytes

theorem Encoded.serve (h : Encoded s) (c : TermCall) : Encoded (s.serve db c) := by
  cases c with
  | setCurrentTerm t =>
      unfold Encoded TermLog.serve
      dsimp only
      split
      · rfl
      · exact h
  | getCurrentTerm behind => exact h

/-- **One read.** -/
theorem tellsStored_iff (hkeeps : Keeps db s) (hencoded : Encoded s) (c : TermCall) :
    TellsStored db s c ↔ FindsStored db s c := by
  cases c with
  | setCurrentTerm t => exact Iff.rfl
  | getCurrentTerm behind =>
      simp only [TellsStored, FindsStored, getCurrentTerm_fst]
      have hok := hkeeps.get_ok []
      have hfailed := hkeeps.get_failed []
      rw [List.foldl_nil] at hok hfailed
      rcases hanswer : s.answer db with ⟨status, buf⟩
      rw [hanswer] at hok hfailed
      cases status with
      | ok =>
          have hput : s.lastSet.map termBytes = some buf := hencoded ▸ hok rfl
          obtain ⟨t, ht, rfl⟩ := Option.map_eq_some_iff.mp hput
          rw [if_neg (by simp), eightBytes_termBytes, termOfBytes_termBytes]
          exact iff_of_true (.inl ht) fun hne => absurd rfl hne
      | notFound =>
          rw [if_pos rfl]
          exact iff_of_true (.inr ⟨rfl, .inr (by simp)⟩) fun _ hne => absurd rfl hne
      | other code =>
          obtain rfl : buf = [] := hfailed (by simp)
          have hlength : (0 :: List.ofFn behind).length = 8 := by simp
          simp only [eightBytes_nil, ← termOfBytes_eq_iff hlength]
          rw [if_neg (by simp)]
          constructor
          · rintro (hlast | ⟨hzero, -⟩) - -
            · exact .inr ⟨_, hlast, rfl⟩
            · exact .inl hzero
          · intro h
            rcases h (by simp) (by simp) with hzero | ⟨t, hlast, rfl⟩
            · exact .inr ⟨hzero, .inr (by simp)⟩
            · exact .inl hlast

/-- **The exact condition.** In a run over a store that nothing has been put into, every
read tells the last stored term, or zero, exactly when each read that fails in another way
than with `NotFound` finds the bytes of that term, or of zero, behind an empty string. -/
theorem along_tellsStored_iff {log : σ} (h : Keeps db { log := log }) (calls : List TermCall) :
    (termMachine db).Along (TellsStored db) { log := log } calls ↔
      (termMachine db).Along (FindsStored db) { log := log } calls := by
  apply Machine.along_congr (I := fun s => Keeps db s ∧ Encoded s) (P := fun _ => True) ?_ ?_
    ⟨h, rfl⟩ (fun _ _ => trivial)
  · rintro s c s' ⟨hkeeps, hencoded⟩ - heq
    exact Option.some.inj heq ▸ ⟨hkeeps.serve c, hencoded.serve c⟩
  · rintro s c ⟨hkeeps, hencoded⟩ -
    exact tellsStored_iff hkeeps hencoded c

/-! ## A store that can fail -/

/-- A store in memory, with a list that says of each coming call whether it fails. -/
def flaky : RocksDB ((Bytes → Option Bytes) × List Bool) where
  get s key value :=
    if s.2.headD false then ((.other 5, value), (s.1, s.2.tail))
    else
      match s.1 key with
      | none => ((.notFound, value), (s.1, s.2.tail))
      | some stored => ((.ok, stored), (s.1, s.2.tail))
  put s key value :=
    if s.2.headD false then (.other 5, (s.1, s.2.tail))
    else (.ok, (fun k => if k = key then some value else s.1 k, s.2.tail))

/-- It holds what has been put last. -/
theorem flaky_serve {s : TermLog ((Bytes → Option Bytes) × List Bool)}
    (h : s.log.1 kCurrentTerm = s.lastPut) (c : TermCall) :
    (s.serve flaky c).log.1 kCurrentTerm = (s.serve flaky c).lastPut := by
  cases c with
  | setCurrentTerm t =>
      cases hfails : s.log.2.headD false with
      | true => simp only [TermLog.serve, setCurrentTerm, flaky, hfails, if_true, h, reduceCtorEq,
          if_false]
      | false => simp only [TermLog.serve, setCurrentTerm, flaky, hfails, Bool.false_eq_true,
          if_false, if_true]
  | getCurrentTerm behind =>
      have hlog : (flaky.get s.log kCurrentTerm []).2.1 = s.log.1 := by
        simp only [flaky]
        split
        · rfl
        · split <;> rfl
      have hread : (getCurrentTerm flaky behind s.log).2 = (flaky.get s.log kCurrentTerm []).2 := by
        unfold getCurrentTerm
        dsimp only
        split <;> rfl
      show (getCurrentTerm flaky behind s.log).2.1 kCurrentTerm = s.lastPut
      rw [hread, hlog, h]

theorem flaky_answer (s : TermLog ((Bytes → Option Bytes) × List Bool)) :
    ((s.answer flaky).1 = .ok → s.log.1 kCurrentTerm = some (s.answer flaky).2) ∧
      ((s.answer flaky).1 ≠ .ok → (s.answer flaky).2 = []) := by
  unfold TermLog.answer
  simp only [flaky]
  split
  · exact ⟨nofun, fun _ => rfl⟩
  · split
    · exact ⟨nofun, fun _ => rfl⟩
    · next stored hstored => exact ⟨fun _ => hstored, fun h => absurd rfl h⟩

theorem flaky_keeps (fails : List Bool) :
    Keeps flaky { log := ((fun _ => none, fails) : (Bytes → Option Bytes) × List Bool) } := by
  have hput : ∀ calls : List TermCall,
      (calls.foldl (TermLog.serve flaky) { log := (fun _ => none, fails) }).log.1 kCurrentTerm =
        (calls.foldl (TermLog.serve flaky) { log := (fun _ => none, fails) }).lastPut := by
    intro calls
    induction calls using List.reverseRecOn with
    | nil => rfl
    | append_singleton calls c ih =>
        rw [List.foldl_append]
        exact flaky_serve ih c
  constructor
  · intro calls hok
    rw [← hput calls]
    exact (flaky_answer _).1 hok
  · intro calls
    exact (flaky_answer _).2

/-- A read before anything is stored, a term, and three reads, the second of which fails
and finds zeros. -/
theorem along_tellsStored_flaky :
    (termMachine flaky).Along (TellsStored flaky)
      { log := (fun _ => none, [false, false, false, true]) }
      [.getCurrentTerm fun _ => 1, .setCurrentTerm 258, .getCurrentTerm fun _ => 1,
        .getCurrentTerm fun _ => 0, .getCurrentTerm fun _ => 1] := by
  refine (along_tellsStored_iff (flaky_keeps _) _).mpr ?_
  simp only [Machine.along_ofFun_cons]
  refine ⟨fun _ hfound => absurd (by decide) hfound, trivial, fun hok => absurd (by decide) hok,
    fun _ _ => .inl (by decide), fun hok => absurd (by decide) hok, trivial⟩

/-- A read that fails returns whatever lies behind an empty string. -/
theorem not_along_tellsStored_failed :
    ¬ ∀ (σ : Type) (db : RocksDB σ) (log : σ) (calls : List TermCall),
      Keeps db { log := log } →
        (termMachine db).Along (TellsStored db) { log := log } calls := by
  intro h
  have htells := h _ flaky (fun _ => none, [false, true])
    [.setCurrentTerm 7, .getCurrentTerm fun _ => 1] (flaky_keeps _)
  simp only [Machine.along_ofFun_cons] at htells
  rcases htells.2.1 with hlast | ⟨hzero, -⟩
  · exact absurd hlast (by decide)
  · exact absurd hzero (by decide)

end RaftLog

end Anraft

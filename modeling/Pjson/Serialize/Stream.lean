/-
  Serializing to a stream: `StreamSink`, the `SerializeError` overload of `pjson::toString`, and
  `pjson::write`.

  The stream accepts every byte as long as its `failbit` is clear, and none afterwards; setting the
  bit throws if the caller has enabled exceptions.  Indentation is written in blocks, and a request
  of more bytes than a `streamsize` holds sets the bit.  `StreamSink` is lawful, with that limit on
  a single request: this is what it does not share with the sink that counts.
-/
import Pjson.Serialize.Render

namespace ByteDance

/-- `std::numeric_limits<std::streamsize>::max()` on the 64-bit platforms. -/
def streamsizeMax : Nat := 2 ^ 63 - 1

/-- A `std::ostream` whose buffer takes every byte: the bytes it has taken, its `failbit`, and
    whether setting the bit throws. -/
structure OStream where
  bytes : Bytes := []
  failbit : Bool := false
  exceptions : Bool := false
  deriving DecidableEq

/-- `StreamSink`, with the stream it is bound to. -/
structure StreamSink where
  out : OStream
  limit : Nat
  written : Nat := 0

namespace StreamSink

/-- `setstate(std::ios::failbit)`. -/
def setFailbit : SinkM StreamSink Unit := do
  modify fun s => { s with out := { s.out with failbit := true } }
  if (← get).out.exceptions then throw (.failure "basic_ios::clear: iostream error") else pure ()

/-- `ostream::put` and `ostream::write`. -/
def deliver (bs : Bytes) : SinkM StreamSink Unit :=
  modify fun s =>
    if s.out.failbit then s else { s with out := { s.out with bytes := s.out.bytes ++ bs } }

def account (amount : Nat) : SinkM StreamSink Bool := do
  let s ← get
  if ¬ WithinBudget s.limit s.written amount then
    setFailbit
    return false
  else
    set { s with written := s.written + amount }
    return true

/-- The loop of `repeat`. -/
def writeBlocks (aChar : UInt8) (aCount : Nat) : SinkM StreamSink Unit := do
  if aCount = 0 then pure ()
  else if (← get).out.failbit then pure ()
  else
    deliver (List.replicate (min aCount 256) aChar)
    writeBlocks aChar (aCount - min aCount 256)
termination_by aCount
decreasing_by omega

/-- The exit of `repeat` on a count that is refused. -/
def refuse : SinkM StreamSink Bool := do
  if !(← get).out.failbit then setFailbit else pure ()
  return false

/-- `repeat` on a count that is not refused. -/
def emitBlocks (aChar : UInt8) (aCount : Nat) : SinkM StreamSink Bool := do
  writeBlocks aChar aCount
  return !(← get).out.failbit

def fail : SinkM StreamSink Bool := do
  setFailbit
  return false

def put (aChar : UInt8) : SinkM StreamSink Unit := do
  if ← account 1 then deliver [aChar] else pure ()

def write (bs : Bytes) : SinkM StreamSink Unit :=
  if bs.length > streamsizeMax then setFailbit
  else do
    if ← account bs.length then deliver bs else pure ()

def «repeat» (aChar : UInt8) (aCount : Nat) : SinkM StreamSink Bool :=
  if aCount > streamsizeMax then refuse
  else do
    if ← account aCount then emitBlocks aChar aCount else refuse

instance : Sink StreamSink where
  put := put
  write := write
  «repeat» := «repeat»
  fail := fail
  invalidUtf8 := fail
  invalidNumber := fail
  good s := !s.out.failbit

/-- Nothing that has been written is taken back, and a failed stream takes nothing. -/
structure Extends (s t : StreamSink) : Prop where
  bytes : s.out.bytes <+: t.out.bytes
  failed : s.out.failbit = true → t.out.failbit = true ∧ t.out.bytes = s.out.bytes

theorem Extends.refl (s : StreamSink) : Extends s s := ⟨List.prefix_refl _, fun h => ⟨h, rfl⟩⟩

theorem Extends.trans {s t u : StreamSink} (h : Extends s t) (h' : Extends t u) : Extends s u := by
  refine ⟨h.bytes.trans h'.bytes, fun hs => ?_⟩
  obtain ⟨ht, hbytes⟩ := h.failed hs
  obtain ⟨hu, hbytes'⟩ := h'.failed ht
  exact ⟨hu, hbytes'.trans hbytes⟩

/-- A sink with the same bytes behind a stream that is not good any more. -/
theorem Extends.of_failed {s t : StreamSink} (h : t.out.bytes = s.out.bytes)
    (ht : t.out.failbit = true) : Extends s t := by
  refine ⟨?_, fun _ => ⟨ht, h⟩⟩
  rw [h]

/-- Streaming as writing to a destination. -/
def destination : Destination StreamSink where
  good s := !s.out.failbit
  fits s n := WithinBudget s.limit s.written n
  advance s bs :=
    { s with out := { s.out with bytes := s.out.bytes ++ bs }, written := s.written + bs.length }
  le := Extends
  fits_zero _ := withinBudget_zero _ _
  fits_add s bs n := withinBudget_add s.limit s.written bs.length n
  advance_nil s := by simp
  advance_append s a b := by simp [Nat.add_assoc]
  good_advance s bs h := h
  le_refl := Extends.refl
  le_trans := Extends.trans
  le_advance s bs hgood := by
    refine ⟨List.prefix_append _ _, fun hs => ?_⟩
    rw [hs] at hgood
    cases hgood

variable {α : Type} {bad : α → Prop}

/-- Behind `setFailbit` the stream has failed, with the bytes it had. -/
theorem setFailbit_failed {x : SinkM StreamSink α} {s : StreamSink}
    (hx : ∀ t : StreamSink, t.out.failbit = true → destination.Failed bad t (x.run t)) :
    destination.Failed bad s ((do setFailbit; x).run s) := by
  have hrun : (do setFailbit; x).run s =
      (do (if s.out.exceptions then throw (StdException.failure "basic_ios::clear: iostream error")
            else pure () : SinkM StreamSink Unit); x).run { s with out := { s.out with failbit := true } } := rfl
  rw [hrun]
  have hle : Extends s { s with out := { s.out with failbit := true } } := Extends.of_failed rfl rfl
  cases s.out.exceptions with
  | true => exact hle
  | false => exact Destination.Failed.trans hle (hx _ rfl)

/-- A failed stream with a result that tells so. -/
theorem failed_pure {a : α} (ha : bad a) {t : StreamSink} (ht : t.out.failbit = true) :
    destination.Failed bad t ((pure a : SinkM StreamSink α).run t) :=
  ⟨ha, congrArg not ht, Extends.refl t⟩

theorem account_run {n : Nat} {s : StreamSink} (h : WithinBudget s.limit s.written n) :
    (account n).run s = .ok true { s with written := s.written + n } := by
  show (if ¬ WithinBudget s.limit s.written n then _ else _ : SinkM StreamSink Bool).run s = _
  rw [if_neg (not_not_intro h)]
  rfl

/-- Over the budget `account` fails the stream, whatever the caller does with its result. -/
theorem account_failed {f : Bool → SinkM StreamSink α} {n : Nat} {s : StreamSink}
    (h : ¬ WithinBudget s.limit s.written n)
    (hf : ∀ t : StreamSink, t.out.failbit = true → destination.Failed bad t ((f false).run t)) :
    destination.Failed bad s ((account n >>= f).run s) := by
  have hrun : (account n >>= f).run s =
      ((if ¬ WithinBudget s.limit s.written n then (do setFailbit; return false)
        else (do set { s with written := s.written + n }; return true) : SinkM StreamSink Bool) >>=
          f).run s := rfl
  rw [hrun, if_pos h, bind_assoc]
  exact setFailbit_failed fun t ht => hf t ht

theorem deliver_run {bs : Bytes} {s : StreamSink} (h : s.out.failbit = false) :
    (deliver bs).run s = .ok () { s with out := { s.out with bytes := s.out.bytes ++ bs } } := by
  show EStateM.Result.ok () (if s.out.failbit then s else _) = _
  rw [h]
  rfl

theorem deliver_failed {bs : Bytes} {s : StreamSink} (h : s.out.failbit = true) :
    (deliver bs).run s = .ok () s := by
  show EStateM.Result.ok () (if s.out.failbit then s else _) = _
  rw [h]
  rfl

/-- The blocks add up to the count. -/
theorem writeBlocks_run (aChar : UInt8) (aCount : Nat) {s : StreamSink}
    (h : s.out.failbit = false) : (writeBlocks aChar aCount).run s =
      .ok () { s with out := { s.out with bytes := s.out.bytes ++ List.replicate aCount aChar } } := by
  induction aCount using Nat.strong_induction_on generalizing s with
  | _ aCount ih =>
    rw [writeBlocks]
    by_cases hzero : aCount = 0
    · rw [if_pos hzero, hzero, List.replicate_zero, List.append_nil]
      rfl
    · rw [if_neg hzero]
      have hrun : (do
          if (← get).out.failbit then pure ()
          else
            deliver (List.replicate (min aCount 256) aChar)
            writeBlocks aChar (aCount - min aCount 256) : SinkM StreamSink Unit).run s =
          (if s.out.failbit then pure ()
          else do
            deliver (List.replicate (min aCount 256) aChar)
            writeBlocks aChar (aCount - min aCount 256) : SinkM StreamSink Unit).run s := rfl
      rw [hrun, h, if_neg Bool.false_ne_true, EStateM.run_bind, deliver_run h]
      have hrest := ih (aCount - min aCount 256) (by omega)
        (s := { s with out := { s.out with bytes := s.out.bytes ++ List.replicate (min aCount 256) aChar } }) h
      have hsplit : List.replicate (min aCount 256) aChar ++
          List.replicate (aCount - min aCount 256) aChar = List.replicate aCount aChar := by
        rw [List.replicate_append_replicate]
        congr 1
        omega
      rw [← hsplit, ← List.append_assoc]
      exact hrest

theorem writeBlocks_failed (aChar : UInt8) (aCount : Nat) {s : StreamSink}
    (h : s.out.failbit = true) : (writeBlocks aChar aCount).run s = .ok () s := by
  rw [writeBlocks]
  by_cases hzero : aCount = 0
  · rw [if_pos hzero]
    rfl
  · rw [if_neg hzero]
    show (if s.out.failbit then pure () else _ : SinkM StreamSink Unit).run s = _
    rw [h]
    rfl

theorem refuse_failed (s : StreamSink) : destination.Failed (· = false) s (refuse.run s) := by
  have hrun : refuse.run s = (if !s.out.failbit then (do setFailbit; return false) else return false :
      SinkM StreamSink Bool).run s := rfl
  rw [hrun]
  cases hs : s.out.failbit with
  | false => exact setFailbit_failed fun t ht => failed_pure rfl ht
  | true => exact failed_pure rfl hs

theorem fail_emits : destination.Emits (· = false) fail true none :=
  Destination.emits_none fun _ => setFailbit_failed fun _ ht => failed_pure rfl ht

/-- A write that is not refused by its length. -/
theorem deliver_emits (bs : Bytes) :
    destination.Emits (fun _ => True)
      (do if ← account bs.length then deliver bs else pure () : SinkM StreamSink Unit) ()
      (some bs) where
  done s bs' heq hgood hfit := by
    cases heq
    rw [EStateM.run_bind, account_run hfit]
    exact deliver_run ((Bool.not_eq_true' _).mp hgood)
  failed s hbad := by
    by_cases hfit : WithinBudget s.limit s.written bs.length
    · have hs : s.out.failbit = true := by
        rcases hbad with hbad | hbad
        · exact (Bool.not_eq_false' _).mp hbad
        · exact absurd hfit (hbad bs rfl)
      rw [EStateM.run_bind, account_run hfit]
      show destination.Failed _ s ((deliver bs).run { s with written := s.written + bs.length })
      rw [deliver_failed (by exact hs)]
      exact ⟨trivial, congrArg not hs, Extends.of_failed rfl hs⟩
    · exact account_failed hfit fun t ht => failed_pure trivial ht

theorem write_emits {bs : Bytes} (h : bs.length ≤ streamsizeMax) :
    destination.Emits (fun _ => True) (write bs) () (some bs) := by
  unfold write
  rw [if_neg (not_lt.mpr h)]
  exact deliver_emits bs

theorem repeat_emits (b : UInt8) (n : Nat) :
    destination.Emits (· = false) («repeat» b n) true
      (if decide (n ≤ streamsizeMax) then some (List.replicate n b) else none) := by
  unfold «repeat»
  by_cases hn : n ≤ streamsizeMax
  · rw [if_neg (not_lt.mpr hn), decide_eq_true hn, if_pos rfl]
    refine ⟨fun s bs heq hgood hfit => ?_, fun s hbad => ?_⟩
    · cases heq
      have hadvance : destination.advance s (List.replicate n b) =
          { s with
            out := { s.out with bytes := s.out.bytes ++ List.replicate n b }
            written := s.written + n } := by
        show StreamSink.mk _ _ (s.written + (List.replicate n b).length) = _
        rw [List.length_replicate]
      rw [List.length_replicate] at hfit
      rw [hadvance, EStateM.run_bind, account_run hfit]
      show (emitBlocks b n).run { s with written := s.written + n } = _
      have hs : s.out.failbit = false := (Bool.not_eq_true' _).mp hgood
      unfold emitBlocks
      rw [EStateM.run_bind, writeBlocks_run b n (by exact hs)]
      show EStateM.Result.ok (!s.out.failbit) _ = _
      rw [hs]
      rfl
    · by_cases hfit : WithinBudget s.limit s.written n
      · have hs : s.out.failbit = true := by
          rcases hbad with hbad | hbad
          · exact (Bool.not_eq_false' _).mp hbad
          · refine absurd ?_ (hbad _ rfl)
            rw [List.length_replicate]
            exact hfit
        rw [EStateM.run_bind, account_run hfit]
        show destination.Failed _ s ((emitBlocks b n).run { s with written := s.written + n })
        unfold emitBlocks
        rw [EStateM.run_bind, writeBlocks_failed b n (by exact hs)]
        exact ⟨congrArg not hs, congrArg not hs, Extends.of_failed rfl hs⟩
      · exact account_failed hfit fun t _ => refuse_failed t
  · rw [if_pos (not_le.mp hn), decide_eq_false hn]
    exact Destination.emits_none refuse_failed

/-- `StreamSink` is lawful, with a limit on every single request. -/
def lawful : LawfulSink StreamSink where
  toDestination := destination
  writable n := n ≤ streamsizeMax
  admits n := decide (n ≤ streamsizeMax)
  good_eq := rfl
  writable_short n hn := hn.trans (by decide)
  admits_le n h := (of_decide_eq_true h).trans (by decide)
  put_emits b := deliver_emits [b]
  write_emits _ h := write_emits h
  repeat_emits b n _ := repeat_emits b n
  fail_emits := fail_emits
  invalidUtf8_emits := fail_emits
  invalidNumber_emits := fail_emits

end StreamSink

/-! ## The printed form of doubles is short -/

/-- `d2s_buffered_n` stays within the buffer of 32 bytes it is given. -/
def FitsBuffer (d2s : Binary64 → Bytes) : Prop := ∀ d, (d2s d).length ≤ 32

theorem length_ite_le {c : Prop} [Decidable c] {s t : Bytes} {n : Nat} (hs : c → s.length ≤ n)
    (ht : ¬ c → t.length ≤ n) : (if c then s else t).length ≤ n := by
  split
  · exact hs ‹_›
  · exact ht ‹_›

theorem writeOutExponent_length (result : Bytes) (exponent : Nat) :
    (writeOutExponent result exponent).length ≤ result.length + 20 := by
  have hdigits : ∀ begin, (((result.drop begin).take (exponent - begin)).erase 0x2E).length ≤
      result.length := by
    intro begin
    refine (List.erase_sublist).length_le.trans ?_
    rw [List.length_take, List.length_drop]
    omega
  -- the exponent moves the point by at most 15 places
  have hpadded : ∀ (digits : Bytes) (position : Int), digits.length ≤ result.length →
      -3 ≤ position → position ≤ 15 →
      (if position ≤ 0 then [0x30, 0x2E] ++ (List.replicate (-position).toNat 0x30 ++ digits)
        else if position.toNat ≥ digits.length then
          digits ++ List.replicate (position.toNat - digits.length) 0x30
        else digits.take position.toNat ++ 0x2E :: digits.drop position.toNat : Bytes).length ≤
          result.length + 19 := by
    intro digits position hlen hlo hhi
    split_ifs <;> simp only [List.length_cons, List.length_append, List.length_replicate,
      List.length_take, List.length_drop, List.length_nil] <;> omega
  unfold writeOutExponent
  dsimp only
  refine length_ite_le (fun hsmall => ?_) fun _ => Nat.le_add_right _ _
  refine length_ite_le (fun _ => ?_) fun _ => ?_
  · rw [List.length_cons]
    exact Nat.succ_le_succ (hpadded _ _ (hdigits _) (by omega) (by omega))
  · exact (hpadded _ _ (hdigits _) (by omega) (by omega)).trans (Nat.le_succ _)

theorem formatDouble_length {d2s : Binary64 → Bytes} (h : FitsBuffer d2s) (d : Binary64) :
    (formatDouble d2s d).length ≤ 64 := by
  have hmap : ((d2s d).map fun c => if c = 0x45 then (0x65 : UInt8) else c).length ≤ 32 := by
    rw [List.length_map]
    exact h d
  unfold formatDouble formatText
  split_ifs
  · decide
  · dsimp only
    generalize (d2s d).map (fun c => if c = 0x45 then (0x65 : UInt8) else c) = result at hmap
    have hpointed : ∀ {t : Bytes}, t.length ≤ 52 →
        (if t.any (fun c => c == 0x2E || c == 0x65 || c == 0x45) then t
          else t ++ [0x2E, 0x30]).length ≤ 64 := by
      intro t ht
      refine length_ite_le (fun _ => ht.trans (by decide)) fun _ => ?_
      rw [List.length_append]
      exact (Nat.add_le_add_right ht 2).trans (by decide)
    cases result.findIdx? (· == 0x65) with
    | none => exact hpointed (hmap.trans (by decide))
    | some exponent =>
      exact hpointed ((writeOutExponent_length result exponent).trans (by omega))

end ByteDance

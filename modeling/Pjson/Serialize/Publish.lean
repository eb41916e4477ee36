/-
  What a failing serialization leaves behind: `pjsonImpl::_writeValue`, the `SerializeError`
  overloads of `pjson::toString` and `pjson::write`, and what they publish when they fail.

  The counting pass runs first, so that a logical failure is found before a byte is written.  There
  is one failure it does not find: an indentation that a `size_t` can count but a `streamsize` cannot.
  `publishesNothing_iff`: the destination is left alone exactly unless that happens.
-/
import Pjson.Serialize.Agreement

namespace ByteDance

/-- `pjson::SerializeError::Code`. -/
inductive SerializeErrorCode where
  | None
  | InvalidUtf8
  | NonFiniteNumber
  | OutputLimit
  | AllocationFailure
  | StreamFailure
  | InternalError
  deriving DecidableEq, Repr

/-- `pjson::SerializeError`. -/
structure SerializeError where
  code : SerializeErrorCode := .None
  message : String := ""
  deriving DecidableEq, Repr

namespace Serialize

/-! ## The source -/

/-- The report of a counting pass that has failed. -/
def countingError (count : CountingSink) : SerializeError :=
  if count.invalidUtf8 then ⟨.InvalidUtf8, "JSON string contains invalid UTF-8"⟩
  else if count.invalidNumber then ⟨.NonFiniteNumber, "JSON number is not finite"⟩
  else ⟨.OutputLimit, "JSON output exceeds maxOutputBytes or representable size"⟩

/-- The handlers of `pjson::toString`. -/
def caughtByToString : StdException → SerializeError
  | .length_error what => ⟨.OutputLimit, what⟩
  | .invalid_argument what => ⟨.InternalError, what⟩
  | .failure _ => ⟨.InternalError, "JSON serialization failed with an internal exception"⟩

/-- The handlers of `pjson::write`. -/
def caughtByWrite : StdException → SerializeError
  | .failure what => ⟨.StreamFailure, what⟩
  | _ => ⟨.InternalError, "JSON serialization failed with an internal exception"⟩

/-- The result of an overload that reports its error, and the destination it leaves. -/
structure Published (δ : Type) where
  ok : Bool
  dest : δ
  error : SerializeError

variable (d2s : Binary64 → Bytes) (opts : SerializeOptions) (v : Pjson)

/-- `pjson::toString(aOut, aError, aOpts)`. -/
def toStringTo (aOut : Bytes) : Published Bytes :=
  match countRun d2s opts v with
  | .error e _ => ⟨false, aOut, caughtByToString e⟩
  | .ok false count => ⟨false, aOut, countingError count⟩
  | .ok true count =>
    if count.written > stringMaxSize then
      ⟨false, aOut, caughtByToString (.length_error "basic_string::reserve")⟩
    else
      match stringRun d2s opts v with
      | .error e _ => ⟨false, aOut, caughtByToString e⟩
      | .ok _ result => ⟨true, result.out, {}⟩

/-- The emitting pass of `write`: its sink has no limit. -/
def emitRun (aOut : OStream) : EStateM.Result StdException StreamSink Bool :=
  (writeValueTo d2s opts v).run { out := aOut, limit := 0 }

/-- `pjson::write(aOut, aError, aOpts)`. -/
def write (aOut : OStream) : Published OStream :=
  match countRun d2s opts v with
  | .error e _ => ⟨false, { aOut with failbit := true }, caughtByWrite e⟩
  | .ok false count => ⟨false, { aOut with failbit := true }, countingError count⟩
  | .ok true _ =>
    match emitRun d2s opts v aOut with
    | .error e sink => ⟨false, { sink.out with failbit := true }, caughtByWrite e⟩
    | .ok false sink => ⟨false, sink.out, ⟨.StreamFailure, "JSON destination stream write failed"⟩⟩
    | .ok true sink => ⟨true, sink.out, {}⟩

/-- `_writeValue`, which is `pjson::write(aOut, aOpts)`: its result or exception, and the stream. -/
def writeValue (aOut : OStream) : Except StdException Bool × OStream :=
  match countRun d2s opts v with
  | .error e _ => (.error e, aOut)
  | .ok false _ =>
    (if aOut.exceptions then .error (.failure "basic_ios::clear: iostream error") else .ok false,
      { aOut with failbit := true })
  | .ok true _ =>
    match emitRun d2s opts v aOut with
    | .error e sink => (.error e, sink.out)
    | .ok b sink => (.ok b, sink.out)

/-! ## What is published -/

/-- **A failure publishes nothing**: not a byte on the stream, and no other string. -/
structure PublishesNothing (aOut : OStream) (out : Bytes) : Prop where
  writeValue : (writeValue d2s opts v aOut).1 ≠ .ok true →
    (Serialize.writeValue d2s opts v aOut).2.bytes = aOut.bytes
  write : (write d2s opts v aOut).ok = false → (Serialize.write d2s opts v aOut).dest.bytes = aOut.bytes
  toString : (toStringTo d2s opts v out).ok = false → (toStringTo d2s opts v out).dest = out

/-- The value has a text that the counting pass admits, with an indentation that no stream takes. -/
def Oversteps : Prop :=
  ∃ t, text d2s opts v = some t ∧ t.length ≤ sizeMax ∧
    (opts.maxOutputBytes = 0 ∨ t.length ≤ opts.maxOutputBytes) ∧
    streamsizeMax < longestIndent opts v

variable {d2s opts v}

/-- A value with a long indentation is a container that is not empty. -/
theorem frameOf_of_longestIndent (h : 0 < longestIndent opts v) : ∃ frame, frameOf 0 v = some frame := by
  have hlevels : v.levels ≠ 0 := by
    intro hzero
    unfold longestIndent at h
    rw [hzero, Nat.zero_mul, ite_self] at h
    exact absurd h (lt_irrefl 0)
  rcases v with _ | _ | _ | _ | _ | (_ | ⟨x, xs⟩) | (_ | ⟨m, ms⟩) | _
  all_goals first
    | exact absurd rfl hlevels
    | exact ⟨_, rfl⟩

/-- The pass has failed with such bytes on the stream. -/
def EmitFailed (left : Bytes → Prop) : EStateM.Result StdException StreamSink Bool → Prop
  | .ok b sink => b = false ∧ left sink.out.bytes
  | .error _ sink => left sink.out.bytes

theorem emitFailed_of_failed {left : Bytes → Prop} {s : StreamSink}
    {r : EStateM.Result StdException StreamSink Bool}
    (h : StreamSink.destination.Failed (· = false) s r)
    (hleft : ∀ t, StreamSink.Extends s t → left t.out.bytes) : EmitFailed left r := by
  cases r with
  | ok b t => exact ⟨h.1, hleft t h.2.2⟩
  | error e t => exact hleft t h

/-- A stream that has failed before is left alone. -/
theorem emitRun_of_failbit (hd2s : FitsBuffer d2s) {aOut : OStream} (h : aOut.failbit = true) :
    EmitFailed (· = aOut.bytes) (emitRun d2s opts v aOut) := by
  have hemits := writeValueTo_emits StreamSink.lawful
    (fun d => StreamSink.lawful.writable_short _ (formatDouble_length hd2s d)) opts v
  refine emitFailed_of_failed (hemits.failed { out := aOut, limit := 0 } (Or.inl (congrArg not h))) ?_
  exact fun t ht => (ht.failed h).2

/-- A text whose indentations fit a `streamsize` is written. -/
theorem emitRun_of_fits (hd2s : FitsBuffer d2s) {aOut : OStream} (h : aOut.failbit = false)
    {bs : Bytes} (htext : text d2s opts v = some bs) (hfit : longestIndent opts v ≤ streamsizeMax) :
    emitRun d2s opts v aOut =
      .ok true (StreamSink.destination.advance { out := aOut, limit := 0 } bs) := by
  have hemits := writeValueTo_emits StreamSink.lawful
    (fun d => StreamSink.lawful.writable_short _ (formatDouble_length hd2s d)) opts v
  refine hemits.done { out := aOut, limit := 0 } bs ?_ (congrArg not h) (Or.inl rfl)
  exact (render_of_admits v hfit).trans htext

/-- A text with a longer indentation is begun. -/
theorem emitRun_of_not_fits (hd2s : FitsBuffer d2s) {aOut : OStream} (h : aOut.failbit = false)
    (hlong : streamsizeMax < longestIndent opts v) :
    EmitFailed (fun bytes => ∃ b rest, bytes = aOut.bytes ++ b :: rest)
      (emitRun d2s opts v aOut) := by
  obtain ⟨frame, hframe⟩ := frameOf_of_longestIndent (Nat.zero_lt_of_lt hlong)
  have hopened := writeValueTo_opened StreamSink.lawful
    (fun d => StreamSink.lawful.writable_short _ (formatDouble_length hd2s d)) opts hframe
    (s := { out := aOut, limit := 0 }) (congrArg not h) (Or.inl rfl)
    (render_of_not_admits v (not_le.mpr hlong))
  refine emitFailed_of_failed hopened fun t ht => ?_
  obtain ⟨rest, hrest⟩ := ht.bytes
  exact ⟨openBracket frame, rest, by rw [← hrest]; exact List.append_assoc _ [_] _⟩

/-- The counting pass succeeds, and reports a length. -/
theorem countRun_cases (d2s : Binary64 → Bytes) (opts : SerializeOptions) (v : Pjson) :
    (∃ c bs, countRun d2s opts v = .ok true c ∧ text d2s opts v = some bs ∧ bs.length ≤ sizeMax ∧
        (opts.maxOutputBytes = 0 ∨ bs.length ≤ opts.maxOutputBytes)) ∨
      ((∀ c, countRun d2s opts v ≠ .ok true c) ∧ ∀ bs, text d2s opts v = some bs →
        ¬ (bs.length ≤ sizeMax ∧ (opts.maxOutputBytes = 0 ∨ bs.length ≤ opts.maxOutputBytes))) := by
  by_cases hc : ∃ c, Wrote (countRun d2s opts v) c
  · obtain ⟨c, hc⟩ := hc
    obtain ⟨bs, hbs, -, ⟨hsize, hlimit⟩, -⟩ := countRun_iff.mp hc
    exact Or.inl ⟨c, bs, hc, hbs, hsize, hlimit⟩
  · refine Or.inr ⟨fun c h => hc ⟨c, h⟩, fun bs hbs hfit => hc ⟨_, countRun_iff.mpr ⟨bs, hbs, ?_, hfit, rfl⟩⟩⟩
    exact (longestIndent_le hbs).trans hfit.1

/-- A string destination is only touched on success. -/
theorem toStringTo_dest {out : Bytes} (h : (toStringTo d2s opts v out).ok = false) :
    (toStringTo d2s opts v out).dest = out := by
  revert h
  unfold toStringTo
  rcases countRun d2s opts v with ⟨_ | _, count⟩ | ⟨e, count⟩
  · exact fun _ => rfl
  · dsimp only
    split_ifs
    · exact fun _ => rfl
    · rcases stringRun d2s opts v with ⟨b, s⟩ | ⟨e, s⟩
      · intro h
        cases h
      · exact fun _ => rfl
  · exact fun _ => rfl

section Counted

variable {c : CountingSink} (hcount : countRun d2s opts v = .ok true c) {aOut : OStream}
include hcount

/-- Behind a counting pass that has succeeded the emitting pass decides. -/
theorem write_failed {left : Bytes → Prop} (h : EmitFailed left (emitRun d2s opts v aOut)) :
    (write d2s opts v aOut).ok = false ∧ left (write d2s opts v aOut).dest.bytes := by
  revert h
  unfold write
  rw [hcount]
  rcases emitRun d2s opts v aOut with ⟨_ | _, sink⟩ | ⟨e, sink⟩
  · exact fun h => ⟨rfl, h.2⟩
  · exact fun h => absurd h.1 (by simp)
  · exact fun h => ⟨rfl, h⟩

theorem writeValue_failed {left : Bytes → Prop} (h : EmitFailed left (emitRun d2s opts v aOut)) :
    (writeValue d2s opts v aOut).1 ≠ .ok true ∧ left (writeValue d2s opts v aOut).2.bytes := by
  revert h
  unfold writeValue
  rw [hcount]
  rcases emitRun d2s opts v aOut with ⟨_ | _, sink⟩ | ⟨e, sink⟩
  · exact fun h => ⟨by simp, h.2⟩
  · exact fun h => absurd h.1 (by simp)
  · exact fun h => ⟨by simp, h⟩

end Counted

/-- **A failure publishes nothing** exactly unless the stream is good and the value oversteps: a text
    within the limits, with an indentation of more bytes than a `streamsize` holds. -/
theorem publishesNothing_iff (d2s : Binary64 → Bytes) (hd2s : FitsBuffer d2s)
    (opts : SerializeOptions) (v : Pjson) (aOut : OStream) (out : Bytes) :
    PublishesNothing d2s opts v aOut out ↔ ¬ (aOut.failbit = false ∧ Oversteps d2s opts v) := by
  have hstring : (toStringTo d2s opts v out).ok = false → (toStringTo d2s opts v out).dest = out :=
    toStringTo_dest
  rcases countRun_cases d2s opts v with ⟨c, bs, hcount, htext, hsize, hlimit⟩ | ⟨hcount, hno⟩
  · cases hgood : aOut.failbit with
    | true =>
      have hfailed : EmitFailed (· = aOut.bytes) (emitRun d2s opts v aOut) :=
        emitRun_of_failbit hd2s hgood
      refine iff_of_true ⟨fun _ => ?_, fun _ => ?_, hstring⟩ (fun h => absurd h.1 (by simp))
      · exact (writeValue_failed hcount hfailed).2
      · exact (write_failed hcount hfailed).2
    | false =>
      rcases le_or_gt (longestIndent opts v) streamsizeMax with hfit | hlong
      · have hemit := emitRun_of_fits hd2s hgood htext hfit
        refine iff_of_true ⟨fun h => absurd ?_ h, fun h => ?_, hstring⟩ ?_
        · unfold writeValue
          rw [hcount, hemit]
        · unfold write at h
          rw [hcount, hemit] at h
          cases h
        · rintro ⟨-, -, -, -, -, hlong⟩
          exact absurd hfit (not_le.mpr hlong)
      · have hfailed := emitRun_of_not_fits hd2s hgood hlong
        obtain ⟨hfail, b, rest, hbytes⟩ := write_failed hcount hfailed
        refine iff_of_false (fun h => ?_) (not_not_intro ⟨rfl, bs, htext, hsize, hlimit, hlong⟩)
        have hsame := h.write hfail
        rw [hbytes] at hsame
        exact absurd (List.append_right_eq_self.mp hsame) (List.cons_ne_nil _ _)
  · -- the counting pass fails, and nothing else is done
    refine iff_of_true ⟨fun _ => ?_, fun _ => ?_, hstring⟩ ?_
    · unfold writeValue
      rcases hr : countRun d2s opts v with ⟨_ | _, count⟩ | ⟨e, count⟩
      · rfl
      · exact absurd hr (hcount count)
      · rfl
    · unfold write
      rcases hr : countRun d2s opts v with ⟨_ | _, count⟩ | ⟨e, count⟩
      · rfl
      · exact absurd hr (hcount count)
      · rfl
    · rintro ⟨-, bs, hbs, hsize, hlimit, -⟩
      exact hno bs hbs ⟨hsize, hlimit⟩

/-- `[null]`, printed prettily with an indentation of 2^63 blanks: the counting pass finds room for
    the blanks, and the stream refuses them behind `[` and a new line. -/
theorem not_publishesNothing_wide :
    ¬ PublishesNothing (fun _ => [0x30, 0x45, 0x30])
      { pretty := true, indentWidth := 2 ^ 63, maxOutputBytes := 0 } (.jsonArray [.jsonNull]) {} [] := by
  intro h
  have hbytes := h.write (by decide +kernel)
  revert hbytes
  decide +kernel

/-- A text over the limit publishes nothing. -/
theorem publishesNothing_limit :
    PublishesNothing (fun _ => [0x30, 0x45, 0x30]) { maxOutputBytes := 1 } (.jsonArray [.jsonNull]) {}
      [0x78] :=
  (publishesNothing_iff _ (fun _ => by decide) _ _ _ _).mpr fun ⟨_, _, _, _, _, hlong⟩ =>
    absurd hlong (by decide)

end Serialize

end ByteDance

/-
  The counting pass predicts the writing passes.

  On a value whose text stays below 2^62 bytes, the three sinks agree: they succeed on the same
  values, with the same bytes, and they fail exactly for a string that is no UTF-8, a double that is
  refused or a text over the limit.
-/
import Pjson.Serialize.Stream
import Pjson.Serialize.Text

namespace ByteDance

namespace Serialize

variable (d2s : Binary64 → Bytes) (opts : SerializeOptions) (v : Pjson)

/-- The counting pass. -/
def countRun : EStateM.Result StdException CountingSink Bool :=
  (writeValueTo d2s opts v).run { limit := opts.maxOutputBytes }

/-- The traversal into a string that is empty at first, with the same limit. -/
def stringRun : EStateM.Result StdException StringSink Bool :=
  (writeValueTo d2s opts v).run { out := [], limit := opts.maxOutputBytes }

/-- The traversal into a stream, with the same limit. -/
def streamRun (aOut : OStream) : EStateM.Result StdException StreamSink Bool :=
  (writeValueTo d2s opts v).run { out := aOut, limit := opts.maxOutputBytes }

/-- The traversal has returned true, and left this sink. -/
def Wrote {σ : Type} (r : EStateM.Result StdException σ Bool) (s : σ) : Prop := r = .ok true s

/-- A value has no text: a string or key is no UTF-8, or a double is refused. -/
def NoText : Prop :=
  (∃ s ∈ v.strings, ¬ Utf8.WellFormed s) ∨
    opts.nonFinite = .RejectNonFinite ∧ ∃ d ∈ v.doubles, d.isFinite = false

/-- The text is longer than the limit. -/
def OverLimit : Prop :=
  ∃ t, text d2s opts v = some t ∧ opts.maxOutputBytes ≠ 0 ∧ opts.maxOutputBytes < t.length

variable {d2s opts v}

theorem text_eq_none_iff : text d2s opts v = none ↔ NoText opts v := by
  have h : ¬ (render anyIndent d2s opts 0 v).isSome ↔ ¬ _ := not_congr (render_any_isSome_iff v 0)
  rw [Option.not_isSome_iff_eq_none, not_and_or] at h
  unfold text NoText
  rw [h]
  refine or_congr (by push Not; rfl) ?_
  unfold Prints
  push Not
  constructor
  · rintro ⟨d, hd, hreject, hf⟩
    exact ⟨hreject, d, hd, Bool.eq_false_of_not_eq_true hf⟩
  · rintro ⟨hreject, d, hd, hf⟩
    exact ⟨d, hd, hreject, by rw [hf]; exact Bool.false_ne_true⟩

/-- **One traversal on a lawful sink**: it does its work where the text and the indentation fit. -/
theorem run_iff {σ : Type} [Sink σ] (D : LawfulSink σ) (hd2s : ∀ d, D.writable (formatDouble d2s d).length)
    {limit : Nat} (hadmits : D.admits = fun n => decide (n ≤ limit)) {s t : σ} (hs : D.good s = true) :
    Wrote ((writeValueTo d2s opts v).run s) t ↔
      ∃ bs, text d2s opts v = some bs ∧ longestIndent opts v ≤ limit ∧ D.fits s bs.length ∧
        t = D.advance s bs := by
  have hrender : ∀ bs, render D.admits d2s opts 0 v = some bs ↔
      text d2s opts v = some bs ∧ longestIndent opts v ≤ limit := by
    intro bs
    rw [hadmits]
    by_cases h : longestIndent opts v ≤ limit
    · rw [render_of_admits v h]
      exact (and_iff_left h).symm
    · rw [render_of_not_admits v h]
      exact iff_of_false (by simp) fun h' => h h'.2
  unfold Wrote
  rcases (writeValueTo_emits D hd2s opts v).cases hs with ⟨bs, hbs, hfit, hrun⟩ | ⟨hno, hfail⟩
  · rw [hrun]
    obtain ⟨htext, hindent⟩ := (hrender bs).mp hbs
    constructor
    · intro h
      cases h
      exact ⟨bs, htext, hindent, hfit, rfl⟩
    · rintro ⟨bs', htext', -, -, rfl⟩
      rw [htext] at htext'
      cases htext'
      rfl
  · constructor
    · intro h
      rw [h] at hfail
      exact absurd hfail.1 (by simp)
    · rintro ⟨bs, htext, hindent, hfit, -⟩
      exact absurd hfit (hno bs ((hrender bs).mpr ⟨htext, hindent⟩))

/-- The limit of the options, on what is written first. -/
theorem withinBudget_first {limit n : Nat} :
    WithinBudget limit 0 n ↔ limit = 0 ∨ n ≤ limit := by
  unfold WithinBudget budgetLeft
  omega

theorem countRun_iff {c : CountingSink} : Wrote (countRun d2s opts v) c ↔
    ∃ bs, text d2s opts v = some bs ∧ longestIndent opts v ≤ sizeMax ∧
      (bs.length ≤ sizeMax ∧ (opts.maxOutputBytes = 0 ∨ bs.length ≤ opts.maxOutputBytes)) ∧
      c = CountingSink.destination.advance { limit := opts.maxOutputBytes } bs := by
  have hgood : CountingSink.lawful.good { limit := opts.maxOutputBytes } = true := rfl
  have hadmits : CountingSink.lawful.admits = fun n => decide (n ≤ sizeMax) := rfl
  unfold countRun
  rw [run_iff CountingSink.lawful (fun _ => trivial) hadmits hgood]
  simp only [← withinBudget_first]
  exact Iff.rfl

theorem stringRun_iff {s : StringSink} : Wrote (stringRun d2s opts v) s ↔
    ∃ bs, text d2s opts v = some bs ∧ longestIndent opts v ≤ sizeMax ∧
      (bs.length ≤ stringMaxSize ∧ (opts.maxOutputBytes = 0 ∨ bs.length ≤ opts.maxOutputBytes)) ∧
      s = StringSink.destination.advance { out := [], limit := opts.maxOutputBytes } bs := by
  have hgood : StringSink.lawful.good { out := [], limit := opts.maxOutputBytes } = true := rfl
  have hadmits : StringSink.lawful.admits = fun n => decide (n ≤ sizeMax) := rfl
  unfold stringRun
  rw [run_iff StringSink.lawful (fun _ => trivial) hadmits hgood]
  simp only [← withinBudget_first]
  exact Iff.rfl

theorem streamRun_iff (hd2s : FitsBuffer d2s) {aOut : OStream} (hgood : aOut.failbit = false)
    {s : StreamSink} : Wrote (streamRun d2s opts v aOut) s ↔
    ∃ bs, text d2s opts v = some bs ∧ longestIndent opts v ≤ streamsizeMax ∧
      (opts.maxOutputBytes = 0 ∨ bs.length ≤ opts.maxOutputBytes) ∧
      s = StreamSink.destination.advance { out := aOut, limit := opts.maxOutputBytes } bs := by
  have hready : StreamSink.lawful.good { out := aOut, limit := opts.maxOutputBytes } = true :=
    congrArg not hgood
  have hadmits : StreamSink.lawful.admits = fun n => decide (n ≤ streamsizeMax) := rfl
  unfold streamRun
  rw [run_iff StreamSink.lawful
    (fun d => StreamSink.lawful.writable_short _ (formatDouble_length hd2s d)) hadmits hready]
  simp only [← withinBudget_first]
  exact Iff.rfl

/-- The traversal asks a sink for less than `n` bytes in total: where nothing stops it, it asks for
    the bytes of the text. -/
def AsksBelow (d2s : Binary64 → Bytes) (opts : SerializeOptions) (v : Pjson) (n : Nat) : Prop :=
  ∀ t, text d2s opts v = some t → t.length < n

/-- **Counting and emission agree.** -/
theorem counting_agrees (d2s : Binary64 → Bytes) (hd2s : FitsBuffer d2s) (opts : SerializeOptions)
    (v : Pjson) (aOut : OStream) (hgood : aOut.failbit = false)
    (hasks : AsksBelow d2s opts v (2 ^ 62)) :
    ((∃ c, Wrote (countRun d2s opts v) c) ↔ ∃ s, Wrote (stringRun d2s opts v) s) ∧
      ((∃ c, Wrote (countRun d2s opts v) c) ↔ ∃ s, Wrote (streamRun d2s opts v aOut) s) ∧
      (∀ c, Wrote (countRun d2s opts v) c → ∃ s t, Wrote (stringRun d2s opts v) s ∧
        Wrote (streamRun d2s opts v aOut) t ∧ t.out.bytes = aOut.bytes ++ s.out ∧
        s.out.length = c.written ∧
        (opts.maxOutputBytes = 0 ∨ c.written ≤ opts.maxOutputBytes)) ∧
      ((¬ ∃ c, Wrote (countRun d2s opts v) c) ↔ NoText opts v ∨ OverLimit d2s opts v) := by
  -- below 2^62 bytes no sink meets a limit of its own
  have hfit : ∀ bs, text d2s opts v = some bs → bs.length ≤ sizeMax ∧ bs.length ≤ stringMaxSize ∧
      longestIndent opts v ≤ sizeMax ∧ longestIndent opts v ≤ streamsizeMax := by
    intro bs h
    have hlen := hasks bs h
    have hindent := longestIndent_le h
    unfold sizeMax stringMaxSize streamsizeMax
    omega
  have hcount : (∃ c, Wrote (countRun d2s opts v) c) ↔ ∃ bs, text d2s opts v = some bs ∧
      (opts.maxOutputBytes = 0 ∨ bs.length ≤ opts.maxOutputBytes) := by
    constructor
    · rintro ⟨c, hc⟩
      obtain ⟨bs, hbs, -, ⟨-, hlimit⟩, -⟩ := countRun_iff.mp hc
      exact ⟨bs, hbs, hlimit⟩
    · rintro ⟨bs, hbs, hlimit⟩
      obtain ⟨hsize, -, hindent, -⟩ := hfit bs hbs
      exact ⟨_, countRun_iff.mpr ⟨bs, hbs, hindent, ⟨hsize, hlimit⟩, rfl⟩⟩
  have hstring : ∀ bs, text d2s opts v = some bs →
      (opts.maxOutputBytes = 0 ∨ bs.length ≤ opts.maxOutputBytes) →
      Wrote (stringRun d2s opts v)
        (StringSink.destination.advance { out := [], limit := opts.maxOutputBytes } bs) := by
    intro bs hbs hlimit
    obtain ⟨-, hsize, hindent, -⟩ := hfit bs hbs
    exact stringRun_iff.mpr ⟨bs, hbs, hindent, ⟨hsize, hlimit⟩, rfl⟩
  have hstream : ∀ bs, text d2s opts v = some bs →
      (opts.maxOutputBytes = 0 ∨ bs.length ≤ opts.maxOutputBytes) →
      Wrote (streamRun d2s opts v aOut)
        (StreamSink.destination.advance { out := aOut, limit := opts.maxOutputBytes } bs) := by
    intro bs hbs hlimit
    obtain ⟨-, -, -, hindent⟩ := hfit bs hbs
    exact (streamRun_iff hd2s hgood).mpr ⟨bs, hbs, hindent, hlimit, rfl⟩
  refine ⟨hcount.trans ⟨?_, ?_⟩, hcount.trans ⟨?_, ?_⟩, ?_, ?_⟩
  · rintro ⟨bs, hbs, hlimit⟩
    exact ⟨_, hstring bs hbs hlimit⟩
  · rintro ⟨s, hs⟩
    obtain ⟨bs, hbs, -, ⟨-, hlimit⟩, -⟩ := stringRun_iff.mp hs
    exact ⟨bs, hbs, hlimit⟩
  · rintro ⟨bs, hbs, hlimit⟩
    exact ⟨_, hstream bs hbs hlimit⟩
  · rintro ⟨s, hs⟩
    obtain ⟨bs, hbs, -, hlimit, -⟩ := (streamRun_iff hd2s hgood).mp hs
    exact ⟨bs, hbs, hlimit⟩
  · intro c hc
    obtain ⟨bs, hbs, -, ⟨-, hlimit⟩, rfl⟩ := countRun_iff.mp hc
    have hwritten : (CountingSink.destination.advance
        ({ limit := opts.maxOutputBytes } : CountingSink) bs).written = bs.length := Nat.zero_add _
    refine ⟨_, _, hstring bs hbs hlimit, hstream bs hbs hlimit, rfl, ?_, ?_⟩
    · rw [hwritten]
      rfl
    · rw [hwritten]
      exact hlimit
  · have hnone : text d2s opts v = none ↔ NoText opts v := text_eq_none_iff
    rw [hcount, ← hnone]
    unfold OverLimit
    constructor
    · intro h
      cases ht : text d2s opts v with
      | none => exact Or.inl rfl
      | some bs =>
        refine Or.inr ⟨bs, rfl, ?_⟩
        have hno := fun hlimit => h ⟨bs, ht, hlimit⟩
        rw [imp_false, not_or, not_le] at hno
        exact hno
    · rintro (hnone | ⟨bs, hbs, hne, hlt⟩) ⟨bs', hbs', hlimit⟩
      · rw [hnone] at hbs'
        cases hbs'
      · rw [hbs] at hbs'
        cases hbs'
        rcases hlimit with h | h
        · exact hne h
        · exact absurd h (not_le.mpr hlt)

/-- The value `[true, 0.0]`, printed prettily into a stream that throws. -/
theorem counting_agrees_pretty :
    ∃ s t, Wrote (stringRun (fun _ => [0x30, 0x45, 0x30]) .prettyPrinted
        (.jsonArray [.jsonBoolean true, .jsonNumberDouble ⟨0⟩])) s ∧
      Wrote (streamRun (fun _ => [0x30, 0x45, 0x30]) .prettyPrinted
        (.jsonArray [.jsonBoolean true, .jsonNumberDouble ⟨0⟩]) { exceptions := true }) t ∧
      t.out.bytes = s.out := by
  have htext : text (fun _ => [0x30, 0x45, 0x30]) .prettyPrinted
      (.jsonArray [.jsonBoolean true, .jsonNumberDouble ⟨0⟩]) =
      some [0x5B, 0x0A, 0x20, 0x20, 0x74, 0x72, 0x75, 0x65, 0x2C, 0x0A, 0x20, 0x20, 0x30, 0x2E, 0x30,
        0x0A, 0x5D] := by
    decide +kernel
  have hasks : AsksBelow (fun _ => [0x30, 0x45, 0x30]) .prettyPrinted
      (.jsonArray [.jsonBoolean true, .jsonNumberDouble ⟨0⟩]) (2 ^ 62) := by
    intro t ht
    rw [htext] at ht
    cases ht
    decide
  obtain ⟨-, -, hwrote, -⟩ := counting_agrees _ (fun _ => by decide) .prettyPrinted _
    { exceptions := true } rfl hasks
  obtain ⟨s, t, hs, ht, heq, -⟩ := hwrote _ (countRun_iff.mpr ⟨_, htext, by decide, by decide, rfl⟩)
  exact ⟨s, t, hs, ht, heq⟩

end Serialize

end ByteDance

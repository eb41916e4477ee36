/-
  The DOM parser stays in its buffer and comes to an end.

  A read behind the buffer and a loop that runs out of its bound are exits of the model.  `Safe l j m m' x`
  says that a function started with at least `j` and at most `m` bytes unread, and `l` levels of nesting left,
  takes neither: it returns with at most `m'` bytes unread, or it fails.  Either way its cursor has only
  moved forwards over the bytes there are and the depth is what it was; and a failure leaves the error that is
  recorded already.
-/
import Pjson.Parser.DomSpec
import Pjson.Parser.Shape
import Pjson.Parser.Located

namespace ByteDance

open Run

/-- What is true of a context when a function has failed. -/
structure ParseCtx.Stopped (c c' : ParseCtx) : Prop where
  cursor : ∃ t, c.rest = t ++ c'.rest ∧ c'.pos = c.pos + t.length
  depth : c'.depth = c.depth
  failed : c'.failed = true
  first : c.failed = true → c'.errPos = c.errPos ∧ c'.errMsg = c.errMsg

/-- The context after a function has returned. -/
def ParseCtx.Reaches (c c' : ParseCtx) : Prop := ∃ t k, c.Moved t k c'

/-- A context reaches itself. -/
theorem ParseCtx.Reaches.refl (c : ParseCtx) : c.Reaches c := ⟨[], 0, .refl c⟩

/-- What one function reaches from where another has stopped reading. -/
theorem ParseCtx.Reaches.trans {c c' c'' : ParseCtx} (h : c.Reaches c') (h' : c'.Reaches c'') : c.Reaches c'' := by
  obtain ⟨t, k, h⟩ := h
  obtain ⟨t', k', h'⟩ := h'
  exact ⟨t ++ t', k + k', h.trans h'⟩

/-- A failure later on is a failure: what has been read before it adds to the way of the cursor. -/
theorem ParseCtx.Reaches.stopped {c c' c'' : ParseCtx} (h : c.Reaches c') (h' : c'.Stopped c'') : c.Stopped c'' := by
  obtain ⟨t, k, h⟩ := h
  obtain ⟨t', hrest, hpos⟩ := h'.cursor
  have heq := h.eq
  refine ⟨⟨t ++ t', by rw [h.rest, hrest, List.append_assoc], ?_⟩, h'.depth.trans h.depth, h'.failed, fun hf => ?_⟩
  · rw [hpos, heq, List.length_append]
    show c.pos + t.length + t'.length = _
    omega
  · have hfirst := h'.first (by rw [heq]; exact hf)
    rw [hfirst.1, hfirst.2, heq]
    exact ⟨rfl, rfl⟩

namespace Dom

/-- There are `l` levels of nesting left. -/
def Levels (l : Nat) (c : ParseCtx) : Prop := c.depth ≤ c.maxDepth ∧ c.maxDepth < c.depth + l

/-- A function that returns leaves as many levels as it found. -/
theorem Levels.moved {l : Nat} {c c' : ParseCtx} (h : Levels l c) (hr : c.Reaches c') : Levels l c' := by
  obtain ⟨t, k, hr⟩ := hr
  unfold Levels
  rw [hr.depth, hr.maxDepth]
  exact h

/-- Neither a read outside nor an exhausted bound; the cursor goes forwards, the depth is kept. -/
def Safe (l j m m' : Nat) {α : Type} (x : DomM α) : Prop :=
  ∀ c, Levels l c → j ≤ c.rest.length → c.rest.length ≤ m →
    Ends x c (fun _ c' => c.Reaches c' ∧ c'.rest.length ≤ m') fun e c' => e = .failed ∧ c.Stopped c'

namespace Safe

variable {l j k m m' m'' : Nat} {α β : Type}

/-- More bytes to start with, and a weaker bound on what is left. -/
theorem mono {x : DomM α} (h : Safe l k m m' x) (hjk : k ≤ j) (hm : m' ≤ m'') : Safe l j m m'' x :=
  fun c hl hj hc => (h c hl (le_trans hjk hj) hc).mono (fun _ _ ht => ⟨ht.1, le_trans ht.2 hm⟩) fun _ _ ht => ht

/-- Where there is a byte there is room for one. -/
theorem of_pos {x : DomM α} (hj : 0 < j) (h : 0 < m → Safe l j m m' x) : Safe l j m m' x :=
  fun c hl hjc hc => h (by omega) c hl hjc hc

/-- A value reads nothing. -/
theorem pure (a : α) : Safe l j m m (Pure.pure a) := fun c _ _ hc => ⟨.refl c, hc⟩

/-- What is left unread by the one is what the other starts with. -/
theorem bind {x : DomM α} {f : α → DomM β} (hx : Safe l j m m' x) (hf : ∀ a, Safe l 0 m' m'' (f a)) :
    Safe l j m m'' (x >>= f) := by
  intro c hl hj hc
  rw [ends_bind]
  refine (hx c hl hj hc).mono (fun a c' ⟨hr, hc'⟩ => ?_) fun _ _ ht => ht
  exact (hf a c' (hl.moved hr) (Nat.zero_le _) hc').mono (fun _ _ ht => ⟨hr.trans ht.1, ht.2⟩)
    fun _ _ ht => ⟨ht.1, hr.stopped ht.2⟩

/-- Both branches are safe. -/
theorem ite {c : Prop} [Decidable c] {x y : DomM α} (hx : Safe l j m m' x) (hy : Safe l j m m' y) :
    Safe l j m m' (if c then x else y) := by
  split
  · exact hx
  · exact hy

/-- A look at the context reads no byte. -/
theorem get_bind {f : ParseCtx → DomM β} (hf : ∀ c, Safe l j m m' (f c)) : Safe l j m m' (get >>= f) :=
  fun c hl hj hc => hf c c hl hj hc

/-- Nor does the position of the cursor. -/
theorem position_bind {f : Nat → DomM β} (hf : ∀ pos, Safe l j m m' (f pos)) : Safe l j m m' (position >>= f) :=
  fun c hl hj hc => hf c.pos c hl hj hc

/-- Behind the test for `k` bytes there are `k` of them, if it says so. -/
theorem remains_bind {f : Bool → DomM β} (htrue : Safe l (max j k) m m' (f true))
    (hfalse : Safe l j m m' (f false)) : Safe l j m m' (remains k >>= f) := by
  intro c hl hj hc
  show Ends (f (decide (k ≤ c.rest.length))) c _ _
  by_cases h : k ≤ c.rest.length
  · rw [decide_eq_true h]
    exact htrue c hl (max_le hj h) hc
  · rw [decide_eq_false h]
    exact hfalse c hl hj hc

/-- A read is safe where there are bytes enough. -/
theorem readAt_bind {f : UInt8 → DomM β} (hk : k < j) (hf : ∀ ch, Safe l j m m' (f ch)) :
    Safe l j m m' (readAt k >>= f) := by
  intro c hl hj hc
  have hsome : c.rest[k]? = some c.rest[k] := List.getElem?_eq_getElem (by omega)
  unfold readAt
  rw [ends_bind, ends_bind, ends_get, hsome]
  exact hf _ c hl hj hc

/-- The cursor moves over bytes that are there; as many fewer are unread. -/
theorem advance_bind {f : Unit → DomM β} (hjk : k ≤ j) (hf : Safe l (j - k) (m - k) m' (f ())) :
    Safe l j m m' (advance k >>= f) := by
  intro c hl hj hc
  have hlen : (c.rest.take k).length = k := by
    rw [List.length_take]
    omega
  have hm : c.Moved (c.rest.take k) 0 { c with pos := c.pos + k, rest := c.rest.drop k } :=
    ⟨(List.take_append_drop k c.rest).symm, by rw [hlen]; rfl⟩
  have hrest : (c.rest.drop k).length = c.rest.length - k := List.length_drop
  unfold advance
  rw [ends_bind, ends_modify]
  refine (hf _ (hl.moved ⟨_, _, hm⟩) ?_ ?_).mono (fun _ _ ht => ⟨.trans ⟨_, _, hm⟩ ht.1, ht.2⟩)
    fun _ _ ht => ⟨ht.1, ParseCtx.Reaches.stopped ⟨_, _, hm⟩ ht.2⟩
  · rw [hrest]
    omega
  · rw [hrest]
    omega

end Safe

variable {l j m m' : Nat} {α β : Type}

/-- `fail` keeps the first error. -/
theorem fail_stops {pos : Nat} {msg : String} {c : ParseCtx} {Q : α → ParseCtx → Prop} :
    Ends (fail pos msg) c Q fun e c' => e = .failed ∧ c.Stopped c' := by
  unfold fail
  rw [ends_bind, ends_modify, ends_throw]
  split
  · rename_i hf
    exact ⟨rfl, ⟨[], rfl, rfl⟩, rfl, hf, fun _ => ⟨rfl, rfl⟩⟩
  · rename_i hf
    exact ⟨rfl, ⟨[], rfl, rfl⟩, rfl, rfl, fun h => absurd h hf⟩

/-- A failure is one of the two ways out. -/
theorem fail_safe {pos : Nat} (msg : String) : Safe l j m m' (fail pos msg : DomM α) :=
  fun _ _ _ _ => fail_stops

/-- So it is at the place of the cursor. -/
theorem failHere_safe (msg : String) : Safe l j m m' (do fail (← position) msg : DomM α) :=
  Safe.position_bind fun _ => fail_safe msg

/-- And at the byte before it. -/
theorem failBefore_safe (msg : String) : Safe l j m m' (do fail ((← position) - 1) msg : DomM α) :=
  Safe.position_bind fun _ => fail_safe msg

/-- The count of nodes may fail, and reads nothing. -/
theorem newNode_bind_safe {f : Unit → DomM β} (hf : Safe l j m m' (f ())) : Safe l j m m' (newNode >>= f) := by
  intro c hl hj hc
  have hm : c.Moved [] 1 { c with nodeCount := c.nodeCount + 1 } := ⟨rfl, rfl⟩
  unfold newNode
  rw [ends_bind, ends_bind, ends_get, ends_ite]
  refine ⟨fun _ => fail_stops, fun _ => ?_⟩
  exact (hf _ (hl.moved ⟨_, _, hm⟩) hj hc).mono (fun _ _ ht => ⟨.trans ⟨_, _, hm⟩ ht.1, ht.2⟩)
    fun _ _ ht => ⟨ht.1, ParseCtx.Reaches.stopped ⟨_, _, hm⟩ ht.2⟩

/-- The count on its own. -/
theorem newNode_safe : Safe l j m m newNode := by
  have h := newNode_bind_safe (Safe.pure () : Safe l j m m (Pure.pure () : DomM Unit))
  rwa [bind_pure] at h

/-- `peek` skips white space; if it sees a byte, there is one to read. -/
theorem peek_bind_safe {f : Option UInt8 → DomM β} (hnone : Safe l 0 m m' (f none))
    (hsome : ∀ ch, Safe l 1 m m' (f (some ch))) : Safe l j m m' (peek >>= f) := by
  intro c hl _ hc
  have hw := whitespace_le c.rest
  have hskip : Safe l (whitespace c.rest) m m' (advance (whitespace c.rest) >>= fun _ => do
      f (← get).rest.head?) := by
    refine Safe.advance_bind (le_refl _) fun d hd _ hlen => ?_
    have hlen : d.rest.length ≤ m := by omega
    show Ends (f d.rest.head?) d _ _
    cases hr : d.rest with
    | nil => exact hnone d hd (Nat.zero_le _) hlen
    | cons ch rest => exact hsome ch d hd (by rw [hr]; exact Nat.succ_le_succ (Nat.zero_le _)) hlen
  exact hskip c hl hw hc

/-- Every round reads a byte, so the rounds do not run out before the bytes do. -/
theorem skipColonLoop_safe {fuel : Nat} (hfuel : m < fuel) : Safe l j m m (skipColonLoop fuel) := by
  induction fuel generalizing j m with
  | zero => exact absurd hfuel (Nat.not_lt_zero m)
  | succ fuel ih =>
    refine Safe.remains_bind (k := 1) (Safe.of_pos (by omega) fun hm => ?_) (failHere_safe _)
    refine Safe.readAt_bind (by omega) fun ch => Safe.advance_bind (by omega) ?_
    refine Safe.ite ((Safe.pure _).mono (le_refl _) (by omega)) (Safe.ite ?_ (failBefore_safe _))
    exact (ih (by omega)).mono (le_refl _) (by omega)

/-- A loop that is given as many rounds as there are bytes, and one more. -/
theorem Safe.of_length {x : Nat → DomM α} (h : ∀ m, Safe l 0 m m (x (m + 1))) :
    Safe l j m m (do x ((← get).rest.length + 1)) := fun c hl _ hc =>
  (h c.rest.length c hl (Nat.zero_le _) (le_refl _)).mono (fun _ _ ht => ⟨ht.1, le_trans ht.2 hc⟩) fun _ _ ht => ht

/-- The loop of `skipColon` is given a round for each byte and one more. -/
theorem skipColon_safe : Safe l j m m skipColon :=
  Safe.of_length fun m => skipColonLoop_safe (Nat.lt_succ_self m)

/-! ## Strings -/

/-- Four reads, with four bytes known to be there. -/
theorem hex4_bind_safe {start : Nat} {f : Option Nat → DomM β} (hj : start + 4 ≤ j)
    (hf : ∀ o, Safe l j m m' (f o)) : Safe l j m m' (hex4 start >>= f) := by
  simp only [hex4, bind_assoc, pure_bind]
  exact Safe.readAt_bind (by omega) fun _ => Safe.readAt_bind (by omega) fun _ =>
    Safe.readAt_bind (by omega) fun _ => Safe.readAt_bind (by omega) fun _ => hf _

/-- The look-ahead for a low surrogate, of six bytes. -/
theorem lowSurrogate_bind_safe {f : Option Nat → DomM β} (hnone : Safe l 0 m m' (f none))
    (hsome : ∀ low, Safe l 6 m m' (f (some low))) : Safe l j m m' (lowSurrogate >>= f) := by
  have hno : ∀ {k : Nat}, Safe l k m m' (f none) := hnone.mono (Nat.zero_le _) (le_refl _)
  unfold lowSurrogate
  rw [bind_assoc]
  refine Safe.remains_bind (k := 6) ?_ hno
  simp only [if_true, bind_assoc]
  refine Safe.readAt_bind (by omega) fun b => ?_
  by_cases hb : b = 0x5C
  swap
  · rw [if_neg hb]
    exact hno
  rw [if_pos hb, bind_assoc]
  refine Safe.readAt_bind (by omega) fun b => ?_
  by_cases hb : b = 0x75
  swap
  · rw [if_neg hb]
    exact hno
  rw [if_pos hb, bind_assoc]
  refine hex4_bind_safe (by omega) fun o => ?_
  cases o with
  | none => exact hno
  | some low =>
    show Safe l _ m m' (f (if 0xDC00 ≤ low ∧ low ≤ 0xDFFF then some low else none))
    by_cases hlow : 0xDC00 ≤ low ∧ low ≤ 0xDFFF
    · rw [if_pos hlow]
      exact (hsome low).mono (by omega) (le_refl _)
    · rw [if_neg hlow]
      exact hno

/-- An escape of four digits is read behind a test for them, and its second half behind one for six
    bytes. -/
theorem unicodeEscape_safe : Safe l j m m unicodeEscape := by
  refine Safe.remains_bind (k := 4) (hex4_bind_safe (by omega) fun o => ?_) (failHere_safe _)
  cases o with
  | none => exact failHere_safe _
  | some cp =>
    refine Safe.advance_bind (by omega) (Safe.ite (lowSurrogate_bind_safe (failHere_safe _) fun low => ?_)
      (Safe.ite (failHere_safe _) ((Safe.pure _).mono (le_refl _) (by omega))))
    exact Safe.advance_bind (le_refl 6) ((Safe.pure _).mono (le_refl _) (by omega))

/-- The byte behind the backslash is read behind a test of its own. -/
theorem escapeBody_safe : Safe l j m m escapeBody := by
  refine Safe.remains_bind (k := 1) (Safe.readAt_bind (by omega) fun e => Safe.advance_bind (by omega) ?_)
    (failHere_safe _)
  rw [escape_switch]
  cases simpleEscape e with
  | none => exact Safe.ite (unicodeEscape_safe.mono (le_refl _) (by omega)) (failBefore_safe _)
  | some d => exact (Safe.pure _).mono (le_refl _) (by omega)

/-- A round consumes the byte it looks at, and all that belongs to it. -/
theorem decodeChar_safe (ch : UInt8) : Safe l 1 m (m - 1) (decodeChar ch) := by
  refine Safe.ite (Safe.advance_bind (le_refl 1) escapeBody_safe)
    (Safe.ite (failHere_safe _) (Safe.ite ?_ (Safe.advance_bind (le_refl 1) (Safe.pure _))))
  refine fun c hl hj hc => ?_
  rw [ends_bind, ends_get]
  show Ends (if utf8Len c.rest = 0 then _ else _) c _ _
  rw [ends_ite]
  refine ⟨fun _ => failHere_safe _ c hl hj hc, fun hn => ?_⟩
  have hpos := Nat.one_le_iff_ne_zero.mpr hn
  exact Safe.advance_bind (le_refl _) ((Safe.pure _).mono (le_refl _) (by omega)) c hl (utf8Len_le c.rest) hc

/-- The loop over a string; a round consumes at least the byte it looks at. -/
theorem decodeStringBody_safe {stopAtQuote : Bool} {fuel : Nat} (hfuel : m < fuel) (out : Bytes) :
    Safe l j m m (decodeStringBody stopAtQuote fuel out) := by
  induction fuel generalizing j m out with
  | zero => exact absurd hfuel (Nat.not_lt_zero m)
  | succ fuel ih =>
    refine Safe.remains_bind (k := 1) (Safe.of_pos (by omega) fun hm => ?_)
      (Safe.ite (c := stopAtQuote = true) (failHere_safe _) (Safe.pure _))
    refine Safe.readAt_bind (by omega) fun ch => Safe.ite
      (Safe.advance_bind (by omega) ((Safe.pure _).mono (le_refl _) (by omega))) ?_
    exact ((decodeChar_safe ch).mono (by omega) (le_refl _)).bind fun decoded =>
      (ih (by omega) _).mono (le_refl _) (by omega)

/-- A string consumes its opening quote at least. -/
theorem extractString_safe : Safe l j m (m - 1) extractString := by
  intro c hl hj hc
  unfold extractString
  rw [ends_bind, ends_get]
  cases hr : c.rest with
  | nil => exact failHere_safe _ c hl hj hc
  | cons ch rest =>
    refine Safe.ite (j := 1) (failHere_safe _) ?_ c hl ?_ hc
    · exact Safe.advance_bind (le_refl 1)
        (Safe.of_length (x := fun n => decodeStringBody true n []) fun m =>
          decodeStringBody_safe (Nat.lt_succ_self m) [])
    · rw [hr]
      exact Nat.succ_le_succ (Nat.zero_le _)

/-- The value is counted when it has been read. -/
theorem parseString_safe : Safe l j m (m - 1) parseString :=
  extractString_safe.bind fun _ => newNode_safe.bind fun _ => Safe.pure _

/-! ## Keywords and numbers -/

/-- A keyword is compared with bytes that are there, and consumed as a whole. -/
theorem startsWith_bind_safe {word : Bytes} {f : Bool → DomM β} (htrue : Safe l word.length m m' (f true))
    (hfalse : Safe l 0 m m' (f false)) : Safe l j m m' (startsWith word >>= f) := by
  have hmatch : ∀ (w : Bytes) (k i : Nat), k + w.length ≤ i → word.length ≤ i → Safe l i m m' (matchWord k w >>= f) := by
    intro w
    induction w with
    | nil => exact fun _ _ _ hi => htrue.mono hi (le_refl _)
    | cons b w ih =>
      intro k i hk hi
      rw [List.length_cons] at hk
      rw [matchWord, bind_assoc]
      refine Safe.readAt_bind (by omega) fun ch => ?_
      by_cases hch : ch = b
      · rw [if_pos hch]
        exact ih _ _ (by omega) hi
      · rw [if_neg hch]
        exact hfalse.mono (Nat.zero_le _) (le_refl _)
  unfold startsWith
  rw [bind_assoc]
  exact Safe.remains_bind (hmatch _ _ _ (by omega) (by omega)) (hfalse.mono (Nat.zero_le _) (le_refl _))

/-- The keywords, one after the other; induction on the list. -/
theorem parseKeywordFrom_safe {kws : List (Bytes × Pjson)} (hkws : ∀ kw ∈ kws, kw.1 ≠ []) :
    Safe l j m (m - 1) (parseKeywordFrom kws) := by
  induction kws generalizing j with
  | nil => exact failHere_safe _
  | cons kw kws ih =>
    rw [List.forall_mem_cons] at hkws
    have hlen := List.length_pos_iff.mpr hkws.1
    refine startsWith_bind_safe (Safe.advance_bind (le_refl _) (newNode_safe.bind fun _ => ?_)) (ih hkws.2)
    exact (Safe.pure _).mono (le_refl _) (by omega)

/-- A part of the number scanner with at most `m` bytes unread: it fails with an error of its own only. -/
def Scans (m m' : Nat) (x : ParseM Span α) : Prop :=
  ∀ s, s.rest.length ≤ m → Ends x s (fun _ s' => s'.rest.length ≤ m') fun e _ => ∃ message, e = .scan message

namespace Scans

variable {m'' : Nat}

theorem pure (a : α) : Scans m m (Pure.pure a) := fun _ hs => hs

theorem throw (message : Option String) : Scans m m' (MonadExcept.throw (.scan message) : ParseM Span α) :=
  fun _ _ => ⟨message, rfl⟩

theorem mono {x : ParseM Span α} (h : Scans m m' x) (hm : m' ≤ m'') : Scans m m'' x :=
  fun s hs => (h s hs).mono (fun _ _ ht => le_trans ht hm) fun _ _ ht => ht

theorem bind {x : ParseM Span α} {f : α → ParseM Span β} (hx : Scans m m' x) (hf : ∀ a, Scans m' m'' (f a)) :
    Scans m m'' (x >>= f) :=
  fun s hs => ends_bind.mpr ((hx s hs).mono (fun a s' hs' => hf a s' hs') fun _ _ ht => ht)

theorem ite {c : Prop} [Decidable c] {x y : ParseM Span α} (hx : Scans m m' x) (hy : Scans m m' y) :
    Scans m m' (if c then x else y) := by
  split
  · exact hx
  · exact hy

/-- The scanner goes on by what it sees. -/
theorem peek_bind {f : Option UInt8 → ParseM Span β} (hnone : Scans m m' (f none))
    (hsome : 0 < m → ∀ ch, Scans m m' (f (some ch))) : Scans m m' (spanCursor.peek >>= f) := by
  intro s hs
  show Ends (f s.rest.head?) s _ _
  cases hr : s.rest with
  | nil => exact hnone s hs
  | cons ch rest => exact hsome (by rw [hr, List.length_cons] at hs; omega) ch s hs

end Scans

/-- A byte is taken from those that are left. -/
theorem scanTake_scans (text : Bytes) : Scans m (m - 1) (scanTake spanCursor text) := by
  intro s hs
  unfold scanTake
  rw [ends_bind]
  show Ends (spanCursor.take) s _ _
  show Ends (get >>= _) s _ _
  rw [ends_bind, ends_get]
  obtain ⟨pos, rest⟩ := s
  cases rest with
  | nil => exact ⟨none, rfl⟩
  | cons ch rest =>
    show rest.length ≤ m - 1
    have hs : rest.length + 1 ≤ m := hs
    omega

/-- The loop over digits ends where they do. -/
theorem scanDigits_scans {fuel : Nat} (hfuel : m < fuel) (text : Bytes) :
    Scans m m (scanDigits spanCursor fuel text) := by
  induction fuel generalizing m text with
  | zero => exact absurd hfuel (Nat.not_lt_zero m)
  | succ fuel ih =>
    refine (scanTake_scans text).bind fun text => Scans.peek_bind ((Scans.pure _).mono (by omega)) fun hm ch => ?_
    exact Scans.ite ((ih (by omega) _).mono (by omega)) ((Scans.pure _).mono (by omega))

/-- The weaker bound, for the places where one byte less does not matter. -/
theorem scanTake_scans_le (text : Bytes) : Scans m m (scanTake spanCursor text) :=
  (scanTake_scans text).mono (Nat.sub_le _ _)

section

variable {fuel : Nat} (hfuel : m < fuel)
include hfuel

/-- A digit has to be there, and any others behind it. -/
theorem scanSomeDigits_scans (text : Bytes) (message : String) :
    Scans m m (scanSomeDigits spanCursor fuel text message) := by
  refine Scans.peek_bind (Scans.throw _) fun _ ch => ?_
  apply Scans.ite
  · exact scanDigits_scans hfuel text
  · exact Scans.throw _

/-- A zero on its own, or digits. -/
theorem scanInt_scans (text : Bytes) : Scans m m (scanInt spanCursor fuel text) := by
  refine Scans.peek_bind (Scans.throw _) fun _ ch => ?_
  apply Scans.ite
  · exact scanTake_scans_le text
  apply Scans.ite
  · exact scanDigits_scans hfuel text
  · exact Scans.throw _

/-- A dot with digits behind it, or nothing. -/
theorem scanFrac_scans (text : Bytes) : Scans m m (scanFrac spanCursor fuel text) := by
  refine Scans.peek_bind (Scans.pure _) fun _ ch => ?_
  apply Scans.ite
  · refine (scanTake_scans_le text).bind fun text => ?_
    refine (scanSomeDigits_scans hfuel text _).bind fun text => ?_
    exact Scans.pure _
  · exact Scans.pure _

/-- A mark, a sign if there is one, and digits; or nothing. -/
theorem scanExp_scans (text : Bytes) : Scans m m (scanExp spanCursor fuel text) := by
  have hsign : ∀ text, Scans m m (scanExpSign spanCursor text) := fun text =>
    Scans.peek_bind (Scans.pure _) fun _ ch => Scans.ite (scanTake_scans_le text) (Scans.pure _)
  refine Scans.peek_bind (Scans.pure _) fun _ ch => ?_
  apply Scans.ite
  · refine (scanTake_scans_le text).bind fun text => ?_
    refine (hsign text).bind fun text => ?_
    refine (scanSomeDigits_scans hfuel text _).bind fun text => ?_
    exact Scans.pure _
  · exact Scans.pure _

end

/-- The digits run out before the fuel does. -/
theorem scanJsonNumber_scans {fuel : Nat} (hfuel : m < fuel) : Scans m m (scanJsonNumber spanCursor fuel) := by
  have hsign : Scans m m (scanSign spanCursor) := by
    refine Scans.peek_bind (Scans.throw _) fun _ ch => ?_
    apply Scans.ite
    · refine (scanTake_scans_le []).bind fun text => ?_
      exact Scans.peek_bind (Scans.throw _) fun _ _ => Scans.pure _
    · exact Scans.pure _
  refine hsign.bind fun text => ?_
  refine (scanInt_scans hfuel text).bind fun text => ?_
  refine (scanFrac_scans hfuel text).bind fun frac => ?_
  refine (scanExp_scans hfuel _).bind fun exp => ?_
  exact Scans.pure _

/-- The scan has its own cursor; the context takes over what it has read, at least one byte. -/
theorem parseNumber_safe (lib : NumericLibrary) : Safe l j m (m - 1) (parseNumber lib) := by
  intro c hl hj hc
  have hscan := scanJsonNumber_scans (Nat.lt_succ_self c.rest.length) ⟨c.pos, c.rest⟩ (le_refl _)
  unfold parseNumber
  rw [ends_bind, ends_get]
  unfold Ends at hscan
  cases hrun : (scanJsonNumber spanCursor (c.rest.length + 1)).run ⟨c.pos, c.rest⟩ with
  | error e scan =>
    rw [hrun] at hscan
    obtain ⟨message, rfl⟩ := hscan
    exact fail_stops
  | ok r scan =>
    obtain ⟨t, rfl, hm, -⟩ := spanView.scanJsonNumber_sound trivial (show Ok _ _ r scan from hrun)
    dsimp only
    cases convertNumberToken lib t.text t.isFloat c.numberPolicy with
    | error message => exact fail_stops
    | ok number =>
      obtain ⟨b, text, htext, -⟩ := t.text_start
      show Ends (newNode >>= _) c _ _
      unfold newNode
      rw [ends_bind, ends_bind, ends_get, ends_ite]
      refine ⟨fun _ => fail_stops, fun _ => ⟨⟨t.text, 1, hm.1, ?_⟩, ?_⟩⟩
      · rw [show scan.pos = c.pos + t.text.length from hm.2]
      · have hrest : c.rest = t.text ++ scan.rest := hm.1
        rw [hrest, htext, List.length_append, List.length_cons] at hc
        show scan.rest.length ≤ m - 1
        omega

/-! ## Containers and values -/

/-- A round of the loop over an array reads a byte at least, be it the mark or the element. -/
theorem arrayLoop_safe {value : DomM Pjson} (hvalue : ∀ m, Safe l 0 m (m - 1) value) {fuel : Nat} (hfuel : m < fuel)
    (expectValue any : Bool) (arr : List Pjson) : Safe l j m m (arrayLoop value fuel expectValue any arr) := by
  induction fuel generalizing j m expectValue any arr with
  | zero => exact absurd hfuel (Nat.not_lt_zero m)
  | succ fuel ih =>
    refine peek_bind_safe (failHere_safe _) fun ch => Safe.of_pos Nat.one_pos fun hm => ?_
    have hnext : ∀ {j : Nat} (expectValue any : Bool) (arr : List Pjson),
        Safe l j (m - 1) m (arrayLoop value fuel expectValue any arr) := fun _ _ _ =>
      (ih (by omega) _ _ _).mono (le_refl _) (by omega)
    refine Safe.ite (Safe.ite (failHere_safe _) ?_)
      (Safe.ite (Safe.ite (failHere_safe _) (Safe.advance_bind (le_refl 1) (hnext _ _ _)))
        (Safe.ite (failHere_safe _) ?_))
    · exact Safe.advance_bind (le_refl 1) ((Safe.pure _).mono (le_refl _) (by omega))
    · exact ((hvalue m).mono (Nat.zero_le _) (le_refl _)).bind fun elem => hnext _ _ _

/-- So does one over an object, where a member is a string, a colon and a value. -/
theorem objectLoop_safe {value : DomM Pjson} (hvalue : ∀ m, Safe l 0 m (m - 1) value) {fuel : Nat} (hfuel : m < fuel)
    (expectMember any : Bool) (obj : List (Bytes × Pjson)) :
    Safe l j m m (objectLoop value fuel expectMember any obj) := by
  induction fuel generalizing j m expectMember any obj with
  | zero => exact absurd hfuel (Nat.not_lt_zero m)
  | succ fuel ih =>
    refine peek_bind_safe (failHere_safe _) fun ch => Safe.of_pos Nat.one_pos fun hm => ?_
    have hnext : ∀ {j m₁ : Nat} (expectMember any : Bool) (obj : List (Bytes × Pjson)), m₁ < m →
        Safe l j m₁ m (objectLoop value fuel expectMember any obj) := fun _ _ _ hlt =>
      (ih (by omega) _ _ _).mono (le_refl _) (by omega)
    refine Safe.ite (Safe.ite (failHere_safe _) ?_)
      (Safe.ite (Safe.ite (failHere_safe _) (Safe.advance_bind (le_refl 1) (hnext _ _ _ (by omega))))
        (Safe.ite (Safe.ite (failHere_safe _) ?_) (failHere_safe _)))
    · exact Safe.advance_bind (le_refl 1) ((Safe.pure _).mono (le_refl _) (by omega))
    · refine Safe.position_bind fun keyOffset => extractString_safe.bind fun mkey => Safe.get_bind fun c =>
        Safe.ite (fail_safe _) (skipColon_safe.bind fun _ => (hvalue _).bind fun val => ?_)
      exact Safe.ite (Safe.ite (hnext _ _ _ (by omega)) (hnext _ _ _ (by omega))) (hnext _ _ _ (by omega))

/-- The level is given back on every return. -/
theorem container_safe {body : DomM Pjson} (hbody : Safe l 0 (m - 1) m' body) :
    Safe (l + 1) 1 m m' (container body) := by
  intro c hl hj hc
  have hinner : Ends (do
      let c ← get
      if c.depth > c.maxDepth then fail c.pos "maximum nesting depth exceeded"
      else
        newNode
        advance 1
        body) { c with depth := c.depth + 1 }
      (fun _ c' => ({ c with depth := c.depth + 1 } : ParseCtx).Reaches c' ∧ c'.rest.length ≤ m')
      fun e c' => e = .failed ∧ ({ c with depth := c.depth + 1 } : ParseCtx).Stopped c' := by
    rw [ends_bind, ends_get, ends_ite]
    refine ⟨fun _ => fail_stops, fun hdepth => ?_⟩
    have hlevels : Levels l { c with depth := c.depth + 1 } := by
      have := hl.2
      exact ⟨Nat.not_lt.mp hdepth, by show c.maxDepth < c.depth + 1 + l; omega⟩
    exact newNode_bind_safe (Safe.advance_bind (le_refl 1) hbody) _ hlevels hj hc
  unfold container
  rw [ends_bind, ends_modify, ends_bind, ends_onError]
  refine hinner.mono (fun v c' ⟨⟨t, k, hr⟩, hlen⟩ => ⟨⟨t, k, hr.rest, ?_⟩, hlen⟩) fun e c' ⟨he, hs⟩ => ⟨he, ?_⟩
  · rw [hr.eq]
    rfl
  · exact ⟨hs.cursor, by show c'.depth - 1 = c.depth; rw [hs.depth]; rfl, hs.failed, hs.first⟩

/-- An array costs one level. -/
theorem parseArray_safe {value : DomM Pjson} (hvalue : ∀ m, Safe l 0 m (m - 1) value) :
    Safe (l + 1) 1 m (m - 1) (parseArray value) :=
  container_safe (Safe.of_length (x := fun n => arrayLoop value n false false []) fun m =>
    arrayLoop_safe hvalue (Nat.lt_succ_self m) _ _ _)

/-- And so does an object. -/
theorem parseObject_safe {value : DomM Pjson} (hvalue : ∀ m, Safe l 0 m (m - 1) value) :
    Safe (l + 1) 1 m (m - 1) (parseObject value) :=
  container_safe (Safe.of_length (x := fun n => objectLoop value n false false []) fun m =>
    objectLoop_safe hvalue (Nat.lt_succ_self m) _ _ _)

/-- **A value**, with the levels of nesting it has left.  Induction on these. -/
theorem parseValue_safe (lib : NumericLibrary) (level : Nat) : Safe level j m (m - 1) (parseValue lib level) := by
  induction level generalizing j m with
  | zero =>
    intro c hl
    exact absurd hl.2 (by have := hl.1; omega)
  | succ level ih =>
    refine peek_bind_safe (failHere_safe _) fun ch => Safe.ite parseString_safe
      (Safe.ite (parseObject_safe fun m => ih) (Safe.ite (parseArray_safe fun m => ih)
        (Safe.ite (parseNumber_safe lib) (parseKeywordFrom_safe (by decide)))))

/-! ## The reads of `_utf8Len` -/

/-- The continuation loop with its reads of `src[pos + k]`: `none` is a read behind the buffer. -/
def utf8TailAt (s : Bytes) : Nat → Nat → Nat → Option (Option Nat)
  | 0, _, cp => some (some cp)
  | n + 1, k, cp => do
    let ck ← s[k]?
    if ck &&& 0xC0 ≠ 0x80 then some none else utf8TailAt s n (k + 1) (cp <<< 6 ||| (ck &&& 0x3F).toNat)

/-- The checks of `_utf8Len` after the lead byte, with its reads. -/
def utf8FinishAt (s : Bytes) (n cp lo : Nat) : Option Nat :=
  if s.length < n then some 0
  else (utf8TailAt s (n - 1) 1 cp).map fun o => o.elim 0 fun cp =>
    if cp < lo then 0 else if cp > 0x10FFFF then 0 else if cp ≥ 0xD800 ∧ cp ≤ 0xDFFF then 0 else n

/-- `_utf8Len` with its reads. -/
def utf8LenAt (s : Bytes) : Option Nat := do
  let c0 ← s[0]?
  if c0 < 0x80 then some 1
  else if c0 &&& 0xE0 = 0xC0 then utf8FinishAt s 2 (c0 &&& 0x1F).toNat 0x80
  else if c0 &&& 0xF0 = 0xE0 then utf8FinishAt s 3 (c0 &&& 0x0F).toNat 0x800
  else if c0 &&& 0xF8 = 0xF0 then utf8FinishAt s 4 (c0 &&& 0x07).toNat 0x10000
  else some 0

/-- As long as there are bytes enough, the loop reads none behind them. -/
theorem utf8TailAt_eq {n k cp : Nat} {s : Bytes} (h : k + n ≤ s.length) :
    utf8TailAt s n k cp = some (utf8Tail n cp (s.drop k)) := by
  induction n generalizing k cp with
  | zero => rfl
  | succ n ih =>
    rw [utf8TailAt, List.getElem?_eq_getElem (by omega), List.drop_eq_getElem_cons (by omega), utf8Tail]
    show (if _ then _ else _) = _
    split_ifs
    · rfl
    · rw [ih (by omega)]

/-- The length is checked before the loop reads. -/
theorem utf8FinishAt_eq {c0 : UInt8} {rest : Bytes} {n cp lo : Nat} (hn : 1 ≤ n) :
    utf8FinishAt (c0 :: rest) n cp lo = some (utf8Finish n cp lo rest) := by
  unfold utf8FinishAt utf8Finish
  rw [List.length_cons]
  split_ifs with h
  · rfl
  · rw [utf8TailAt_eq (by rw [List.length_cons]; omega), Option.map_some, List.drop_one, List.tail_cons]
    cases utf8Tail (n - 1) cp rest <;> rfl

/-- No read of `_utf8Len` is behind the buffer. -/
theorem utf8LenAt_eq {s : Bytes} (hs : s ≠ []) : utf8LenAt s = some (utf8Len s) := by
  obtain ⟨c0, rest, rfl⟩ := List.exists_cons_of_ne_nil hs
  show (if _ then _ else _) = _
  rw [utf8Len]
  split_ifs
  · rfl
  · exact utf8FinishAt_eq (by decide)
  · exact utf8FinishAt_eq (by decide)
  · exact utf8FinishAt_eq (by decide)
  · rfl

end Dom

open Dom

/-- What holds of every run of the DOM parser. -/
structure IndexSafe (lib : NumericLibrary) (opts : ParserOptions) (src : Bytes) : Prop where
  /-- The limit on nesting is the option, within bounds. -/
  nesting : (initial opts src).maxDepth = (max 1 (min opts.maxDepth 1024)).toNat
  /-- The document: no read outside, no loop and no level of nesting beyond its bound, the cursor within the text. -/
  document : Ends (parseValue lib ((initial opts src).maxDepth + 1)) (initial opts src)
    (fun _ c => (initial opts src).Reaches c ∧ Ends peek c (fun _ c' => c.Reaches c') fun _ _ => False)
    fun e c => e = .failed ∧ (initial opts src).Stopped c
  /-- A container gives its level back, however it ends. -/
  balanced : ∀ level c, Levels (level + 1) c → c.rest ≠ [] → ∀ parse ∈ [parseArray, parseObject],
    Ends (parse (parseValue lib level)) c (fun _ c' => c'.depth = c.depth) fun _ c' => c'.depth = c.depth
  /-- An error that is recorded stays. -/
  kept : ∀ level c, Levels level c → c.failed = true →
    Ends (parseValue lib level) c (fun _ c' => c'.errPos = c.errPos ∧ c'.errMsg = c.errMsg)
      fun _ c' => c'.errPos = c.errPos ∧ c'.errMsg = c.errMsg
  /-- And it is the one that is reported. -/
  reported : ∀ e c, (opts.maxInputBytes = 0 ∨ src.length ≤ opts.maxInputBytes) →
    (parseValue lib ((initial opts src).maxDepth + 1)).run (initial opts src) = .error e c →
    (parse lib opts src).2.offset = c.errPos
  /-- The look-ahead over a multi-byte sequence reads no byte behind the text. -/
  utf8 : ∀ rest, rest <:+ src → rest ≠ [] → utf8LenAt rest = some (utf8Len rest)

/-- **The DOM parser stays in its buffer and comes to an end.** -/
theorem parse_indexSafe (lib : NumericLibrary) (opts : ParserOptions) (src : Bytes) : IndexSafe lib opts src where
  nesting := clampParseDepth_eq opts.maxDepth
  document := by
    have hstart : Levels ((initial opts src).maxDepth + 1) (initial opts src) := ⟨Nat.zero_le _, by omega⟩
    refine (parseValue_safe (j := 0) lib _ _ hstart (Nat.zero_le _) (le_refl _)).mono (fun v c ⟨hr, _⟩ => ⟨hr, ?_⟩)
      fun _ _ h => h
    have hlen : (c.rest.take (whitespace c.rest)).length = whitespace c.rest := by
      have := whitespace_le c.rest
      rw [List.length_take]
      omega
    refine ⟨c.rest.take (whitespace c.rest), 0, (List.take_append_drop _ _).symm, ?_⟩
    rw [hlen]
    rfl
  balanced := by
    intro level c hl hne parse hparse
    have hpos : 1 ≤ c.rest.length := List.length_pos_iff.mpr hne
    have hdepth : ∀ {x : DomM Pjson}, Safe (level + 1) 1 c.rest.length (c.rest.length - 1) x →
        Ends x c (fun _ c' => c'.depth = c.depth) fun _ c' => c'.depth = c.depth := fun hx =>
      (hx c hl hpos (le_refl _)).mono (fun _ _ ⟨⟨_, _, hr⟩, _⟩ => hr.depth) fun _ _ h => h.2.depth
    rcases List.mem_cons.mp hparse with rfl | hparse
    · exact hdepth (parseArray_safe fun m => parseValue_safe lib level)
    · rw [List.mem_singleton.mp hparse]
      exact hdepth (parseObject_safe fun m => parseValue_safe lib level)
  kept := by
    intro level c hl hf
    refine (parseValue_safe (j := 0) lib level c hl (Nat.zero_le _) (le_refl _)).mono
      (fun _ c' ⟨⟨_, _, hr⟩, _⟩ => ?_) fun _ _ h => h.2.first hf
    rw [hr.eq]
    exact ⟨rfl, rfl⟩
  reported := by
    intro e c hsize hrun
    show (parseTop lib opts src).2.offset = c.errPos
    unfold parseTop
    rw [if_neg (by omega)]
    dsimp only
    rw [hrun]
    rfl
  utf8 := fun rest _ hne => utf8LenAt_eq hne

end ByteDance

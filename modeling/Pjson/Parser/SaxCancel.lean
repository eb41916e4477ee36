/-
  What a handler can do to a parse: end it, and nothing else.

  A run under a handler is compared with the run of the same parser under a handler that accepts
  everything.  `Cut x y` says that the first takes the course of the second up to the first event
  the handler does not return true for, and exits there with that event as its last.
-/
import Pjson.Parser.SaxTrace

namespace ByteDance

open Run

/-- The handler returns true for each event of `es`, told after `log`. -/
def SaxHandler.Accepts (handler : SaxHandler) (log es : List SaxEvent) : Prop :=
  ∀ told, told ≠ [] → told <+: es → handler (log ++ told) = .returned true

/-- No events are accepted by any handler. -/
theorem SaxHandler.accepts_nil (handler : SaxHandler) (log : List SaxEvent) :
    handler.Accepts log [] := fun _ hne h => absurd (List.prefix_nil.mp h) hne

/-- Events that are accepted one after the other. -/
theorem SaxHandler.Accepts.append {handler : SaxHandler} {log es fs : List SaxEvent}
    (h : handler.Accepts log es) (h' : handler.Accepts (log ++ es) fs) :
    handler.Accepts log (es ++ fs) := by
  intro told hne hpre
  rcases List.prefix_or_prefix_of_prefix hpre (List.prefix_append es fs) with hes | ⟨rest, rfl⟩
  · exact h told hne hes
  · have hrest := (List.prefix_append_right_inj es).mp hpre
    rcases rest with _ | ⟨e, rest⟩
    · rw [List.append_nil] at hne ⊢
      exact h es hne (List.prefix_refl _)
    · rw [← List.append_assoc]
      exact h' _ (List.cons_ne_nil _ _) hrest

/-- How the parser leaves when the handler has not returned true. -/
def HandlerReply.exit : HandlerReply → ParseExit
  | .returned _ => .cancelled
  | .threw badAlloc => .handlerThrew badAlloc

namespace Sax

variable {κ : Type} {α β : Type}

/-- The handler ends `x` at the last of `told`, which are the first events of `es`. -/
structure EndsAt (handler : SaxHandler) (x : SaxM κ α) (s : SaxState κ)
    (es told : List SaxEvent) (event : SaxEvent) : Prop where
  first : told ++ [event] <+: es
  accepted : handler.Accepts s.delivered told
  refused : handler (s.delivered ++ (told ++ [event])) ≠ .returned true
  exits : ∃ t, x.run s = .error (handler (s.delivered ++ (told ++ [event]))).exit t ∧
    t.delivered = s.delivered ++ (told ++ [event])

/-- `x` runs like `y`, up to the first event that the handler does not return true for. -/
def Cut (handler : SaxHandler) (x y : SaxM κ α) : Prop :=
  ∀ s, ∃ es, (Ending.state (y.run s)).delivered = s.delivered ++ es ∧
    ((handler.Accepts s.delivered es ∧ x.run s = y.run s) ∨
      ∃ told event, EndsAt handler x s es told event)

variable {handler : SaxHandler}

/-- A leaf function is the same in both, and delivers nothing. -/
theorem Alike.cut {x y : SaxM κ α} (hx : Alike x x) (h : Alike x y) : Cut handler x y := by
  intro s
  refine ⟨[], by rw [h.quiet, List.append_nil], .inl ⟨handler.accepts_nil _, ?_⟩⟩
  exact (hx.run_eq h s).symm

/-- Once the handler has declined, the rest does not run. -/
theorem Cut.bind {x y : SaxM κ α} {f g : α → SaxM κ β} (h : Cut handler x y)
    (hf : ∀ a, Cut handler (f a) (g a)) : Cut handler (x >>= f) (y >>= g) := by
  intro s
  obtain ⟨es, hes, hx⟩ := h s
  -- an exit of `x` is an exit of the whole
  have hexit : ∀ fs told event, es <+: fs → EndsAt handler x s es told event →
      EndsAt handler (x >>= f) s fs told event := by
    rintro fs told event hfs ⟨htold, hacc, href, t, hrun, ht⟩
    refine ⟨htold.trans hfs, hacc, href, t, ?_, ht⟩
    rw [EStateM.run_bind, hrun]
  cases hy : y.run s with
  | error e t =>
    have hrun : (y >>= g).run s = .error e t := by rw [EStateM.run_bind, hy]
    rw [hy] at hes hx
    rw [hrun]
    refine ⟨es, hes, ?_⟩
    rcases hx with ⟨hacc, hx⟩ | ⟨told, event, hends⟩
    · exact .inl ⟨hacc, by rw [EStateM.run_bind, hx]⟩
    · exact .inr ⟨told, event, hexit es told event (List.prefix_refl _) hends⟩
  | ok a t =>
    have hrun : (y >>= g).run s = (g a).run t := by rw [EStateM.run_bind, hy]
    rw [hy] at hes hx
    have ht : t.delivered = s.delivered ++ es := hes
    obtain ⟨fs, hfs, hfx⟩ := hf a t
    rw [hrun]
    refine ⟨es ++ fs, by rw [hfs, ht, List.append_assoc], ?_⟩
    rcases hx with ⟨hacc, hx⟩ | ⟨told, event, hends⟩
    · have hrunx : (x >>= f).run s = (f a).run t := by rw [EStateM.run_bind, hx]
      rw [ht] at hfx
      rcases hfx with ⟨hacc', hfx⟩ | ⟨told, event, htold, hacc', href, hexits⟩
      · exact .inl ⟨hacc.append hacc', by rw [hrunx, hfx]⟩
      · rw [ht] at hacc' href hexits
        refine .inr ⟨es ++ told, event, ?_, hacc.append hacc', ?_, ?_⟩
        · rw [List.append_assoc]
          exact (List.prefix_append_right_inj _).mpr htold
        · rw [List.append_assoc, ← List.append_assoc s.delivered]
          exact href
        · rw [hrunx, List.append_assoc, ← List.append_assoc s.delivered]
          exact hexits
    · exact .inr ⟨told, event, hexit _ told event (List.prefix_append _ _) hends⟩

/-- Two functions that do not look at the events, in front. -/
theorem Cut.after {x y : SaxM κ α} {f g : α → SaxM κ β} (hx : Alike x x) (h : Alike x y)
    (hf : ∀ a, Cut handler (f a) (g a)) : Cut handler (x >>= f) (y >>= g) := (hx.cut h).bind hf

/-- The two go on alike by what a leaf function has found. -/
theorem Cut.afterOption {x y : SaxM κ (Option α)} {f g : Option α → SaxM κ β} (hx : Alike x x)
    (h : Alike x y) (hnone : Cut handler (f none) (g none))
    (hsome : ∀ a, Cut handler (f (some a)) (g (some a))) : Cut handler (x >>= f) (y >>= g) := by
  refine Cut.after hx h fun o => ?_
  cases o with
  | none => exact hnone
  | some a => exact hsome a

/-- They take the same branch. -/
theorem Cut.ite {c : Prop} [Decidable c] {x x' y y' : SaxM κ α} (hx : Cut handler x x')
    (hy : Cut handler y y') : Cut handler (if c then x else y) (if c then x' else y') := by
  split
  · exact hx
  · exact hy

/-- Reading the state is no event. -/
theorem Cut.get_bind {f g : SaxState κ → SaxM κ α} (h : ∀ s, Cut handler (f s) (g s)) :
    Cut handler (get >>= f) (get >>= g) := by
  intro s
  obtain ⟨es, hes, hx | ⟨told, event, hends⟩⟩ := h s s
  · exact ⟨es, hes, .inl hx⟩
  · exact ⟨es, hes, .inr ⟨told, event, hends.first, hends.accepted, hends.refused, hends.exits⟩⟩

variable [SaxCursor κ] {p q : SaxParser}

/-- How `dispatch` ends when the handler has replied. -/
def HandlerReply.ending (s : SaxState κ) : HandlerReply → Ending κ Unit
  | .returned true => .ok () s
  | .returned false => .error .cancelled s
  | .threw badAlloc => .error (.handlerThrew badAlloc) s

omit [SaxCursor κ] in
/-- A call of the handler ends as its reply says, with the event delivered. -/
theorem dispatch_run (event : SaxEvent) (s : SaxState κ) :
    (dispatch p true event : SaxM κ Unit).run s =
      HandlerReply.ending (s.tell (s.delivered ++ [event])) (p.handler (s.delivered ++ [event])) := by
  have hrun : (dispatch p true event : SaxM κ Unit).run s =
      (match p.handler (s.delivered ++ [event]) with
        | .returned true => (pure () : SaxM κ Unit)
        | .returned false => MonadExcept.throw ParseExit.cancelled
        | .threw badAlloc => MonadExcept.throw (ParseExit.handlerThrew badAlloc)).run
      (s.tell (s.delivered ++ [event])) := rfl
  rw [hrun]
  rcases p.handler (s.delivered ++ [event]) with (_ | _) | badAlloc <;> rfl

/-- The events of a run are those delivered where it ends. -/
theorem parseDocument_events (lib : NumericLibrary) (cur : κ) :
    (parseDocument p lib cur).events = (Ending.state ((document p lib).run { cur := cur })).delivered := by
  unfold parseDocument
  rcases (document p lib).run { cur := cur } with ⟨_, _⟩ | ⟨_ | _ | (_ | _) | _ | _ | _, _⟩ <;> rfl

/-- It is a success if it returns. -/
theorem parseDocument_ok_eq (lib : NumericLibrary) (cur : κ) :
    (parseDocument p lib cur).ok =
      match (document p lib).run { cur := cur } with
      | .ok _ _ => true
      | .error _ _ => false := by
  unfold parseDocument
  rcases (document p lib).run { cur := cur } with ⟨_, _⟩ | ⟨_ | _ | (_ | _) | _ | _ | _, _⟩ <;> rfl

omit [SaxCursor κ] in
/-- The event is the last one, or the handler goes on. -/
theorem dispatch_cut (hq : q.handler.Accepting) (emit : Bool) (event : SaxEvent) :
    Cut p.handler (dispatch p emit event : SaxM κ Unit) (dispatch q emit event) := by
  cases emit with
  | false => exact (Alike.pure ()).cut (Alike.pure ())
  | true =>
    intro s
    rw [dispatch_run, dispatch_run, hq]
    refine ⟨[event], rfl, ?_⟩
    by_cases hreply : p.handler (s.delivered ++ [event]) = .returned true
    · rw [hreply]
      refine .inl ⟨?_, rfl⟩
      rintro told hne hpre
      have hlen : [event].length ≤ told.length := List.length_pos_iff.mpr hne
      rwa [hpre.eq_of_length_le hlen]
    · refine .inr ⟨[], event, List.prefix_refl _, p.handler.accepts_nil _, hreply,
        s.tell (s.delivered ++ [event]), ?_, rfl⟩
      rw [dispatch_run]
      show HandlerReply.ending _ (p.handler (s.delivered ++ [event])) =
        .error (p.handler (s.delivered ++ [event])).exit _
      rcases hr : p.handler (s.delivered ++ [event]) with (_ | _) | badAlloc
      · rfl
      · exact absurd hr hreply
      · rfl

section Values

variable (h : SameOptions p q) (hq : q.handler.Accepting)
include h hq

/-- A keyword. -/
theorem keyword_cut (emit : Bool) (lit : Bytes) (event : SaxEvent) :
    Cut p.handler (keyword p emit lit event : SaxM κ Unit) (keyword q emit lit event) := by
  refine Cut.after (matchLiteral_alike (sameLimits_refl p) _)
    (matchLiteral_alike h.toSameLimits _) fun _ => ?_
  refine Cut.after (reserveNode_alike (sameLimits_refl p)) (reserveNode_alike h.toSameLimits) fun _ => ?_
  exact dispatch_cut hq _ _

/-- The three of them. -/
theorem parseKeywordValue_cut (emit : Bool) :
    Cut p.handler (parseKeywordValue p emit : SaxM κ Unit) (parseKeywordValue q emit) := by
  have hfail : ∀ message, Cut p.handler (fail message : SaxM κ Unit) (fail message) := fun _ =>
    (fail_alike _).cut (fail_alike _)
  refine Cut.afterOption peekChar_alike peekChar_alike (hfail _) fun ch => ?_
  -- `null`, `true`, `false`, or no value
  apply Cut.ite
  · exact keyword_cut h hq _ _ _
  apply Cut.ite
  · exact keyword_cut h hq _ _ _
  apply Cut.ite
  · exact keyword_cut h hq _ _ _
  · exact hfail _

/-- A string. -/
theorem parseStringValue_cut (emit : Bool) :
    Cut p.handler (parseStringValue p emit : SaxM κ Unit) (parseStringValue q emit) := by
  refine Cut.after (reserveNode_alike (sameLimits_refl p)) (reserveNode_alike h.toSameLimits) fun _ => ?_
  refine Cut.after (parseStringRaw_alike (sameLimits_refl p))
    (parseStringRaw_alike h.toSameLimits) fun text => ?_
  exact dispatch_cut hq _ _

/-- A number. -/
theorem parseNumberValue_cut (lib : NumericLibrary) (emit : Bool) :
    Cut p.handler (parseNumberValue p lib emit : SaxM κ Unit) (parseNumberValue q lib emit) := by
  refine Cut.after (scanNumber_alike (sameLimits_refl p)) (scanNumber_alike h.toSameLimits) fun r =>
    Cut.after (reserveNode_alike (sameLimits_refl p)) (reserveNode_alike h.toSameLimits) fun _ => ?_
  rw [h.numberPolicy]
  cases convertNumberToken lib r.1 r.2 p.opts.numberPolicy with
  | error message => exact (fail_alike _).cut (fail_alike _)
  | ok number => exact dispatch_cut hq _ _

omit hq in
/-- The loop over the elements; induction on its bound. -/
theorem arrayLoop_cut {x y : SaxM κ Unit} (hxy : Cut p.handler x y) (fuel : Nat)
    (expect any : Bool) :
    Cut p.handler (arrayLoop p x fuel expect any) (arrayLoop q y fuel expect any) := by
  have hskip : Cut p.handler (skipChar p : SaxM κ _) (skipChar q) :=
    (skipChar_alike (sameLimits_refl p)).cut (skipChar_alike h.toSameLimits)
  have hfail : ∀ message, Cut p.handler (fail message : SaxM κ Unit) (fail message) := fun _ =>
    (fail_alike _).cut (fail_alike _)
  induction fuel generalizing expect any with
  | zero => exact (Alike.throw _).cut (Alike.throw _)
  | succ fuel ih =>
    refine Cut.after (skipWhitespace_alike (sameLimits_refl p))
      (skipWhitespace_alike h.toSameLimits) fun _ => ?_
    refine Cut.afterOption peekChar_alike peekChar_alike
      ((failAtEnd_alike _).cut (failAtEnd_alike _)) fun ch => ?_
    apply Cut.ite
    · -- the closing bracket
      exact Cut.ite (hfail _) hskip
    apply Cut.ite
    · -- a comma
      apply Cut.ite
      · exact hfail _
      · exact hskip.bind fun _ => ih _ _
    · -- an element
      apply Cut.ite
      · exact hfail _
      · exact hxy.bind fun _ => ih _ _

/-- The loop over the members; induction on its bound. -/
theorem objectLoop_cut {x y : Bool → SaxM κ Unit} (hxy : ∀ emit, Cut p.handler (x emit) (y emit))
    (emit : Bool) (fuel : Nat) (expect any : Bool) (seenKeys : List Bytes) :
    Cut p.handler (objectLoop p x emit fuel expect any seenKeys)
      (objectLoop q y emit fuel expect any seenKeys) := by
  have hskip : Cut p.handler (skipChar p : SaxM κ _) (skipChar q) :=
    (skipChar_alike (sameLimits_refl p)).cut (skipChar_alike h.toSameLimits)
  have hfail : ∀ message, Cut p.handler (fail message : SaxM κ Unit) (fail message) := fun _ =>
    (fail_alike _).cut (fail_alike _)
  induction fuel generalizing expect any seenKeys with
  | zero => exact (Alike.throw _).cut (Alike.throw _)
  | succ fuel ih =>
    refine Cut.after (skipWhitespace_alike (sameLimits_refl p))
      (skipWhitespace_alike h.toSameLimits) fun _ => ?_
    refine Cut.afterOption peekChar_alike peekChar_alike
      ((failAtEnd_alike _).cut (failAtEnd_alike _)) fun ch => ?_
    apply Cut.ite
    · -- the closing brace
      exact Cut.ite (hfail _) hskip
    apply Cut.ite
    · -- a comma
      apply Cut.ite
      · exact hfail _
      · exact hskip.bind fun _ => ih _ _ _
    apply Cut.ite
    · exact hfail _
    apply Cut.ite
    · exact hfail _
    · -- a member: only its name and its value are told
      refine Cut.get_bind fun s => ?_
      refine Cut.after (parseStringRaw_alike (sameLimits_refl p))
        (parseStringRaw_alike h.toSameLimits) fun key => ?_
      refine Cut.after (skipWhitespace_alike (sameLimits_refl p))
        (skipWhitespace_alike h.toSameLimits) fun _ => ?_
      refine Cut.after (expectChar_alike (sameLimits_refl p) _ _)
        (expectChar_alike h.toSameLimits _ _) fun _ => ?_
      refine Cut.after (checkKey_alike (sameOptions_refl p) _ _ _ _ _)
        (checkKey_alike h _ _ _ _ _) fun duplicate => ?_
      rw [h.duplicateKeys]
      refine (dispatch_cut hq _ _).bind fun _ => ?_
      exact (hxy _).bind fun _ => ih _ _ _

/-- A container of either kind. -/
theorem container_cut (depth : Nat) (emit : Bool) (bracket : UInt8) (start close : SaxEvent)
    {x y : Nat → SaxM κ Unit} (hxy : ∀ fuel, Cut p.handler (x fuel) (y fuel)) :
    Cut p.handler (container p depth emit bracket start close x)
      (container q depth emit bracket start close y) := by
  unfold container
  rw [h.maxDepth]
  apply Cut.ite
  · exact (fail_alike _).cut (fail_alike _)
  · refine Cut.after (reserveNode_alike (sameLimits_refl p)) (reserveNode_alike h.toSameLimits) fun _ => ?_
    refine Cut.after (expectChar_alike (sameLimits_refl p) _ _)
      (expectChar_alike h.toSameLimits _ _) fun _ => ?_
    refine (dispatch_cut hq _ _).bind fun _ => ?_
    refine Cut.after unread_alike unread_alike fun fuel => ?_
    exact (hxy _).bind fun _ => dispatch_cut hq _ _

/-- A value; induction on the levels of nesting that are left. -/
theorem parseValue_cut (lib : NumericLibrary) (level depth : Nat) (emit : Bool) :
    Cut p.handler (parseValue p lib level depth emit : SaxM κ Unit)
      (parseValue q lib level depth emit) := by
  induction level generalizing depth emit with
  | zero => exact (Alike.throw _).cut (Alike.throw _)
  | succ level ih =>
    refine Cut.after (skipWhitespace_alike (sameLimits_refl p))
      (skipWhitespace_alike h.toSameLimits) fun _ => ?_
    refine Cut.afterOption peekChar_alike peekChar_alike
      ((failAtEnd_alike _).cut (failAtEnd_alike _)) fun ch => ?_
    apply Cut.ite
    · exact parseStringValue_cut h hq _
    apply Cut.ite
    · refine container_cut h hq _ _ _ _ _ fun fuel => ?_
      exact objectLoop_cut h hq (fun _ => ih _ _) _ _ _ _ _
    apply Cut.ite
    · refine container_cut h hq _ _ _ _ _ fun fuel => ?_
      exact arrayLoop_cut h (ih _ _) _ _ _
    apply Cut.ite
    · exact parseNumberValue_cut h hq lib _
    · exact parseKeywordValue_cut h hq _

/-- **A handler that declines cuts the run of one that accepts everything.** -/
theorem document_cut (lib : NumericLibrary) :
    Cut p.handler (document p lib : SaxM κ Unit) (document q lib) := by
  unfold document
  rw [h.maxDepth]
  exact (parseValue_cut h hq lib _ _ _).bind fun _ =>
    Cut.after (skipWhitespace_alike (sameLimits_refl p)) (skipWhitespace_alike h.toSameLimits)
      fun _ => (finishDocument_alike (sameLimits_refl p)).cut (finishDocument_alike h.toSameLimits)

/-- A parse ends like the one with a handler that accepts everything, or the handler ends it: then
    the events up to the one it did not accept are delivered, and the code says who ended it. -/
theorem parseDocument_cut (lib : NumericLibrary) (cur : κ) :
    (p.handler.Accepts [] (parseDocument q lib cur).events ∧
      parseDocument p lib cur = parseDocument q lib cur) ∨
    ∃ told event, told ++ [event] <+: (parseDocument q lib cur).events ∧
      p.handler.Accepts [] told ∧ p.handler (told ++ [event]) ≠ .returned true ∧
      (parseDocument p lib cur).events = told ++ [event] ∧ (parseDocument p lib cur).ok = false ∧
      (parseDocument p lib cur).error.code =
        (if p.handler (told ++ [event]) = .threw true then .AllocationFailure else .CallbackError) := by
  obtain ⟨es, hes, hx⟩ := document_cut h hq (κ := κ) lib { cur := cur }
  have hes : (Ending.state ((document q lib).run { cur := cur })).delivered = es := hes
  rw [parseDocument_events (p := q), hes]
  rcases hx with ⟨hacc, hx⟩ | ⟨told, event, hfirst, hacc, href, t, hrun, ht⟩
  · refine .inl ⟨hacc, ?_⟩
    unfold parseDocument
    rw [hx]
  · have ht : t.delivered = told ++ [event] := ht
    have hrun : (document p lib).run { cur := cur } =
        .error (p.handler (told ++ [event])).exit t := hrun
    refine .inr ⟨told, event, hfirst, hacc, href, ?_⟩
    unfold parseDocument
    rw [hrun, ← ht]
    rcases p.handler t.delivered with (_ | _) | (_ | _) <;> exact ⟨rfl, rfl, rfl⟩

end Values

end Sax

end ByteDance

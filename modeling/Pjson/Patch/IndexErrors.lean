/-
  The errors for index tokens: what a lookup and a patch report of a token that is no index.

  An error is right if it comes from the right place, and there are many places: a patch meets the
  tokens of a path in a `test`, those of a source in a `move` or a `copy`, and those of the target of
  every edit, the last one apart from the others.  The crux is to treat them alike, and in two
  directions.

  * What is reported as out of range has been read as a number.  `RangeRead x` says it of a program,
    whatever it does besides; it is closed under everything a program is built from, so it holds of
    the whole of `applyPatch` (`applyPatchTo_rangeRead`).
  * A malformed token that is met is reported as one.  `Rejects x token cost` says of a program that
    it must fail, and with this error unless the account cannot pay for the way to the token.  `Reads`
    lists the pointers an operation follows, the document it follows each in, and what it has paid by
    then; an operation that reads a pointer with such a token rejects it (`applyOperation_rejects`),
    and so does a patch whose operations before it have a result (`applyPatch_malformed`).

  All of this takes the verdict of `parsePointerIndex` as it is.  Whether it is the right one is a
  matter of the token only, so `indexContract_iff` holds token by token.
-/
import Pjson.Patch.ApplyContract

namespace ByteDance

open Decimal Run Rfc6902

namespace Patch

variable {ε α β : Type}

/-! ## What is out of range has been read -/

/-- A token that the program reports as out of range is not one the parser has found malformed. -/
def RangeRead (x : EStateM ε Account α) : Prop :=
  ∀ s, Ends x s (fun _ _ => True) fun _ t => t.error.code = .ArrayIndexOutOfRange →
    parsePointerIndex t.error.token ≠ .PointerIndexInvalid

namespace RangeRead

/-- A value reports nothing. -/
theorem pure (a : α) : RangeRead (Pure.pure a : EStateM ε Account α) := fun _ => trivial

/-- If the first reports, that is the report. -/
theorem bind {x : EStateM ε Account α} {f : α → EStateM ε Account β} (hx : RangeRead x)
    (hf : ∀ a, RangeRead (f a)) : RangeRead (x >>= f) := fun s =>
  ends_bind.mpr ((hx s).mono (fun a t _ => hf a t) fun _ _ h => h)

/-- A look at the account. -/
theorem get_bind {f : Account → EStateM ε Account β} (hf : ∀ s, RangeRead (f s)) :
    RangeRead (get >>= f) := fun s => hf s s

/-- What follows a test may use that it has failed. -/
theorem ite {c : Prop} [Decidable c] {x y : EStateM ε Account α} (hx : RangeRead x)
    (hy : ¬ c → RangeRead y) : RangeRead (if c then x else y) := by
  split
  · exact hx
  · exact hy ‹_›

/-- A loop over a stack, if its turns are. -/
theorem drain (V : Visitor ε Account α) (h : ∀ a, RangeRead (V.visit a)) (work : List α) :
    RangeRead (V.drain work) := fun s =>
  V.drain_ends (fun a _ t _ => (h a t).mono (fun _ _ h => h) fun _ _ h => h)
    (J := fun _ _ => True) (s := s) trivial

end RangeRead

/-- A failure with another error. -/
theorem failPatch_rangeRead {code : PatchError.Code} (h : code ≠ .ArrayIndexOutOfRange)
    (message : String) : RangeRead (failPatch code message : AccountM α) := fun _ hcode => absurd hcode h

/-- A failure with another code. -/
theorem failPatchAtToken_rangeRead {code : PatchError.Code} (h : code ≠ .ArrayIndexOutOfRange)
    (tokenIndex : Nat) (token : Bytes) (message : String) :
    RangeRead (failPatchAtToken code tokenIndex token message : AccountM α) := fun _ hcode => absurd hcode h

/-- A failure with this error, at a token that has been read. -/
theorem failPatchAtToken_of_read {token : Bytes} (h : parsePointerIndex token ≠ .PointerIndexInvalid)
    (code : PatchError.Code) (tokenIndex : Nat) (message : String) :
    RangeRead (failPatchAtToken code tokenIndex token message : AccountM α) := fun _ _ => h

/-- A sum that overflows is another failure. -/
theorem addSize_rangeRead (a b : Nat) : RangeRead (addSize a b) := fun _ => trivial

/-- So is a difference. -/
theorem subSize_rangeRead (a b : Nat) : RangeRead (subSize a b) := fun _ => trivial

/-- What is entered into the error beforehand does not count: the program goes on. -/
theorem setError_rangeRead (f : PatchError → PatchError) : RangeRead (setError f) := fun _ => trivial

/-- A budget that is exhausted is another failure. -/
theorem chargePatch_rangeRead (r : Resource) (amount : Nat) (message : String) :
    RangeRead (chargePatch r amount message) := by
  have hpay : ∀ b : PatchBudget, RangeRead (do setUsed r (← addSize (b.used r) amount)) :=
    fun _ _ => trivial
  refine RangeRead.get_bind fun s => ?_
  exact RangeRead.ite ((failPatch_rangeRead (by decide) message).bind fun _ => hpay _) fun _ => hpay _

/-- The index is compared with the size only behind the test that it is one. -/
theorem patchArrayIndex_rangeRead (parent : List Pjson) (token : Bytes) (allow : Bool) (i : Nat) :
    RangeRead (patchArrayIndex parent token allow i) := by
  unfold patchArrayIndex
  refine RangeRead.ite ?_ fun _ => ?_
  · exact RangeRead.ite (.pure _) fun _ => failPatchAtToken_rangeRead (by decide) _ _ _
  · cases hparse : parsePointerIndex token with
    | PointerIndexInvalid => exact failPatchAtToken_rangeRead (by decide) _ _ _
    | PointerIndexOverflow =>
      exact failPatchAtToken_of_read (by rw [hparse]; exact PointerIndexResult.noConfusion) _ _ _
    | PointerIndexOk index =>
      refine RangeRead.ite ?_ fun _ => .pure _
      exact failPatchAtToken_of_read (by rw [hparse]; exact PointerIndexResult.noConfusion) _ _ _

/-- Of the codes of a pointer only this one becomes this one. -/
theorem pointerCodeForPatch_range {c : PointerError.Code}
    (h : pointerCodeForPatch c = .ArrayIndexOutOfRange) : c = .ArrayIndexOutOfRange := by
  cases c <;> first | rfl | cases h

/-- A patch judges an index within a path as the lookup does. -/
theorem resolvePatchTokens_rangeRead (root : Pjson) (tokens : List Bytes) (count : Nat) (pointer : Bytes) :
    RangeRead (resolvePatchTokens root tokens count pointer) := by
  unfold resolvePatchTokens
  refine (addSize_rangeRead _ _).bind fun _ => (chargePatch_rangeRead _ _ _).bind fun _ => ?_
  cases hresolve : resolvePointerTokens root tokens count pointer with
  | ok loc => exact .pure loc
  | error e => exact fun _ hcode => resolvePointerTokensFrom_range hresolve (pointerCodeForPatch_range hcode)

/-- The decoding reports no index. -/
theorem decodePatchPointer_rangeRead (pointer : Bytes) (bFrom : Bool) :
    RangeRead (decodePatchPointer pointer bFrom) := by
  unfold decodePatchPointer
  refine (addSize_rangeRead _ _).bind fun _ => (chargePatch_rangeRead _ _ _).bind fun _ => ?_
  cases decodePointer pointer with
  | ok tokens => exact .pure tokens
  | error e => cases bFrom <;> exact failPatchAtToken_rangeRead (by decide) _ _ _

/-- The charges for keys. -/
theorem chargeKeys_rangeRead (ms : List (Bytes × Pjson)) : RangeRead (chargeKeys ms) := by
  induction ms with
  | nil => exact .pure _
  | cons m ms ih =>
    unfold chargeKeys
    exact (chargePatch_rangeRead _ _ _).bind fun _ => ih.bind fun _ => .pure _

/-- The look ahead at the budget. -/
theorem checkRemainingWork_rangeRead (size : Nat) : RangeRead (checkRemainingWork size) := by
  refine RangeRead.get_bind fun s => ?_
  exact RangeRead.ite (failPatch_rangeRead (by decide) _) fun _ => .pure _

/-- The measure of a value charges, and nothing else. -/
theorem measureClone_rangeRead (e : Enumeration) (nodeSize : Nat) (value : Pjson) :
    RangeRead (measureClone e nodeSize value) := by
  refine RangeRead.drain (cloneVisitor nodeSize e) (fun v => ?_) [value]
  show RangeRead (visitClone e nodeSize v)
  unfold visitClone
  refine (chargePatch_rangeRead _ _ _).bind fun _ => (chargePatch_rangeRead _ _ _).bind fun _ =>
    (chargePatch_rangeRead _ _ _).bind fun _ => ?_
  cases v with
  | jsonString s => exact (chargePatch_rangeRead _ _ _).bind fun _ => .pure _
  | jsonArray xs => exact (checkRemainingWork_rangeRead _).bind fun _ => .pure _
  | jsonObject ms => exact (checkRemainingWork_rangeRead _).bind fun _ => chargeKeys_rangeRead _
  | _ => exact .pure _

/-- A comparison fails for want of budget only. -/
theorem patchEqual_rangeRead (e : Enumeration) (l r : Pjson) : RangeRead (patchEqual e l r) := by
  intro s
  have hspend := Pays.drain (equalVisitor e) pairWork (visitEqual_pays e) [(l, r)] s
  unfold Ends at hspend ⊢
  cases hrun : ((equalVisitor e).drain [(l, r)]).run s with
  | ok u t =>
    rw [patchEqual_of_ok hrun]
    trivial
  | error x t =>
    rw [hrun] at hspend
    cases x with
    | unequal =>
      rw [patchEqual_of_unequal hrun]
      trivial
    | failed =>
      rw [patchEqual_of_failed hrun]
      rcases hspend with hearly | ⟨⟨-, hlimit⟩, -⟩
      · cases hearly
      · intro hcode
        rw [hlimit] at hcode
        cases hcode

/-- The walk to the parent, and the index in it. -/
theorem addOwnedAtPointer_rangeRead (root : Pjson) (tokens : List Bytes) (pointer : Bytes) (value : Pjson) :
    RangeRead (addOwnedAtPointer root tokens pointer value) := by
  unfold addOwnedAtPointer
  cases tokens.getLast? with
  | none => exact .pure _
  | some token =>
    refine (resolvePatchTokens_rangeRead _ _ _ _).bind fun parent => ?_
    dsimp only
    split
    · exact RangeRead.ite ((chargePatch_rangeRead _ _ _).bind fun _ => .pure _) fun _ => .pure _
    · refine (patchArrayIndex_rangeRead _ _ _ _).bind fun _ => (subSize_rangeRead _ _).bind fun _ => ?_
      exact (chargePatch_rangeRead _ _ _).bind fun _ => .pure _
    · exact failPatchAtToken_rangeRead (by decide) _ _ _

/-- The walk to the value itself. -/
theorem replaceAtPointer_rangeRead (root : Pjson) (tokens : List Bytes) (pointer : Bytes) (value : Pjson) :
    RangeRead (replaceAtPointer root tokens pointer value) := by
  unfold replaceAtPointer
  cases tokens.getLast? with
  | none => exact .pure _
  | some token =>
    refine (resolvePatchTokens_rangeRead _ _ _ _).bind fun parent => ?_
    dsimp only
    split
    · exact RangeRead.ite (failPatchAtToken_rangeRead (by decide) _ _ _) fun _ => .pure _
    · exact (patchArrayIndex_rangeRead _ _ _ _).bind fun _ => .pure _
    · exact failPatchAtToken_rangeRead (by decide) _ _ _

-- a difference is not to be computed while the steps are matched
attribute [local irreducible] subSize in
/-- The walk to the parent, and the index of what is taken out. -/
theorem detachAtPointer_rangeRead (nodeSize : Nat) (root : Pjson) (tokens : List Bytes) (pointer : Bytes) :
    RangeRead (detachAtPointer nodeSize root tokens pointer) := by
  unfold detachAtPointer
  cases tokens.getLast? with
  | none => exact (chargePatch_rangeRead _ _ _).bind fun _ => (chargePatch_rangeRead _ _ _).bind fun _ => .pure _
  | some token =>
    refine (resolvePatchTokens_rangeRead _ _ _ _).bind fun parent => ?_
    dsimp only
    split
    · split
      · exact failPatchAtToken_rangeRead (by decide) _ _ _
      · exact .pure _
    · refine (patchArrayIndex_rangeRead _ _ _ _).bind ?_
      rintro ⟨index, append⟩
      refine (subSize_rangeRead _ _).bind fun _ => (subSize_rangeRead _ _).bind fun _ => ?_
      exact (chargePatch_rangeRead _ _ _).bind fun _ => .pure _
    · exact failPatchAtToken_rangeRead (by decide) _ _ _

/-- A member of the operation is missing, or of the wrong type. -/
theorem stringMember_rangeRead (operation : List (Bytes × Pjson)) (name : Bytes) {code : PatchError.Code}
    (h : code ≠ .ArrayIndexOutOfRange) (message : String) :
    RangeRead (stringMember operation name code message) := by
  unfold stringMember
  split
  · exact .pure _
  · exact failPatch_rangeRead h _

/-- So is `value`. -/
theorem valueMember_rangeRead (operation : List (Bytes × Pjson)) : RangeRead (valueMember operation) := by
  unfold valueMember
  split
  · exact .pure _
  · exact failPatch_rangeRead (by decide) _

/-- And so is `from`. -/
theorem fromMember_rangeRead (operation : List (Bytes × Pjson)) : RangeRead (fromMember operation) := by
  unfold fromMember
  refine (stringMember_rangeRead _ _ (by decide) _).bind fun _ => (setError_rangeRead _).bind fun _ => ?_
  exact (decodePatchPointer_rangeRead _ _).bind fun _ => .pure _

/-- `copy` and `move`: both pointers are walked. -/
theorem transfer_rangeRead (e : Enumeration) (nodeSize : Nat) (scratch source : Pjson) (copies : Bool)
    (path : Bytes) (pathTokens : List Bytes) (from' : Bytes) (fromTokens : List Bytes) :
    RangeRead (transfer e nodeSize scratch source copies path pathTokens from' fromTokens) := by
  unfold transfer
  refine RangeRead.ite ?_ fun _ => ?_
  · exact (measureClone_rangeRead _ _ _).bind fun _ => addOwnedAtPointer_rangeRead _ _ _ _
  refine RangeRead.ite (.pure _) fun _ => ?_
  refine RangeRead.ite (failPatch_rangeRead (by decide) _) fun _ => ?_
  refine RangeRead.ite (failPatch_rangeRead (by decide) _) fun _ => ?_
  exact (detachAtPointer_rangeRead _ _ _ _).bind fun _ => addOwnedAtPointer_rangeRead _ _ _ _

/-- The six operations. -/
theorem perform_rangeRead (e : Enumeration) (nodeSize : Nat) (scratch : Pjson)
    (operation : List (Bytes × Pjson)) (op path : Bytes) (pathTokens : List Bytes) :
    RangeRead (perform e nodeSize scratch operation op path pathTokens) := by
  unfold perform
  refine RangeRead.ite ?_ fun _ => ?_
  · refine (fromMember_rangeRead _).bind fun _ => (resolvePatchTokens_rangeRead _ _ _ _).bind fun _ => ?_
    split
    · exact failPatch_rangeRead (by decide) _
    · exact transfer_rangeRead _ _ _ _ _ _ _ _ _
  refine RangeRead.ite ?_ fun _ => ?_
  · refine (valueMember_rangeRead _).bind fun _ => (measureClone_rangeRead _ _ _).bind fun _ => ?_
    exact addOwnedAtPointer_rangeRead _ _ _ _
  refine RangeRead.ite ?_ fun _ => ?_
  · exact (detachAtPointer_rangeRead _ _ _ _).bind fun _ => .pure _
  refine RangeRead.ite ?_ fun _ => ?_
  · refine (valueMember_rangeRead _).bind fun _ => (measureClone_rangeRead _ _ _).bind fun _ => ?_
    exact replaceAtPointer_rangeRead _ _ _ _
  refine (valueMember_rangeRead _).bind fun _ => (resolvePatchTokens_rangeRead _ _ _ _).bind fun _ => ?_
  split
  · exact failPatch_rangeRead (by decide) _
  · refine (patchEqual_rangeRead _ _ _).bind fun _ => ?_
    exact RangeRead.ite (.pure _) fun _ => failPatch_rangeRead (by decide) _

/-- One operation, from its members on. -/
theorem applyOperation_rangeRead (e : Enumeration) (nodeSize : Nat) (scratch element : Pjson) :
    RangeRead (applyOperation e nodeSize scratch element) := by
  cases element with
  | jsonObject operation =>
    rw [applyOperation]
    refine (stringMember_rangeRead _ _ (by decide) _).bind fun _ => (setError_rangeRead _).bind fun _ => ?_
    refine RangeRead.ite (failPatch_rangeRead (by decide) _) fun _ => ?_
    refine (stringMember_rangeRead _ _ (by decide) _).bind fun _ => (setError_rangeRead _).bind fun _ => ?_
    exact (decodePatchPointer_rangeRead _ _).bind fun _ => perform_rangeRead _ _ _ _ _ _ _
  | _ => exact failPatch_rangeRead (by decide) _

/-- The operations, one after the other; induction on them. -/
theorem applyOperations_rangeRead (e : Enumeration) (nodeSize : Nat) (operations : List Pjson) (i : Nat)
    (scratch : Pjson) : RangeRead (applyOperations e nodeSize i scratch operations) := by
  induction operations generalizing i scratch with
  | nil => exact .pure _
  | cons operation operations ih =>
    unfold applyOperations
    exact (setError_rangeRead _).bind fun _ => (applyOperation_rangeRead _ _ _ _).bind fun _ => ih _ _

/-- **A patch** reports as out of range only what has been read. -/
theorem applyPatchTo_rangeRead (e : Enumeration) (nodeSize : Nat) (target aPatch : Pjson) :
    RangeRead (applyPatchTo e nodeSize target aPatch) := by
  cases aPatch with
  | jsonArray operations =>
    rw [applyPatchTo]
    refine (chargePatch_rangeRead _ _ _).bind fun _ => (measureClone_rangeRead _ _ _).bind fun _ => ?_
    exact applyOperations_rangeRead _ _ _ _ _
  | _ => exact failPatch_rangeRead (by decide) _

/-! ## What is malformed is rejected -/

/-- The program fails at the token, or because the account cannot pay for the way to it. -/
def Rejects (x : AccountM α) (token : Bytes) (cost : Cost) : Prop :=
  ∀ s : Account, s.budget.Sound → Ends x s (fun _ _ => False) fun _ t => Onward s t ∧
    (t.error.code = .InvalidArrayIndex ∧ t.error.token = token ∨
      t.error.code = .ResourceLimit ∧ ¬ s.budget.Fits cost)

namespace Rejects

variable {token : Bytes} {c d : Cost}

/-- What comes behind the failure does not matter. -/
theorem bind {x : AccountM α} {f : α → AccountM β} (h : Rejects x token c) : Rejects (x >>= f) token c := by
  intro s hs
  rw [ends_bind]
  exact (h s hs).mono (fun _ _ hno => hno.elim) fun _ _ h => h

/-- What comes in front of it has a result and a price. -/
theorem after {x : AccountM α} {f : α → AccountM β} {a : α} (hx : Follows x (some a) c)
    (hf : Rejects (f a) token d) : Rejects (x >>= f) token (c + d) := by
  intro s hs
  rw [ends_bind]
  refine (hx s hs).mono ?_ ?_
  · rintro b t ⟨hb, hspent⟩
    cases hb
    refine (hf t hspent.sound).mono (fun _ _ hno => hno) ?_
    rintro _ u ⟨honward, herror⟩
    refine ⟨hspent.toOnward.trans honward, herror.imp_right ?_⟩
    exact fun h => ⟨h.1, fun hfits => h.2 (hspent.fits_iff.mpr hfits)⟩
  · rintro _ t ⟨honward, hlimit⟩
    obtain ⟨hcode, hfit⟩ := hlimit rfl
    exact ⟨honward, Or.inr ⟨hcode, fun hfits => hfit (hfits.mono le_self_add)⟩⟩

/-- A step in front that costs nothing. -/
theorem free {x : AccountM α} {f : α → AccountM β} {a : α} (hx : Follows x (some a) 0)
    (hf : Rejects (f a) token d) : Rejects (x >>= f) token d := by
  rw [← zero_add d]
  exact after hx hf

end Rejects

/-- A token that stands for no place in an array. -/
structure Malformed (token : Bytes) : Prop where
  append : token ≠ [0x2D]
  parsed : parsePointerIndex token = .PointerIndexInvalid

/-- A token that is no index is rejected whatever the size of the array. -/
theorem patchArrayIndex_rejects {token : Bytes} (h : Malformed token) (parent : List Pjson) (allow : Bool)
    (i : Nat) : Rejects (patchArrayIndex parent token allow i) token 0 := by
  intro s hs
  rw [patchArrayIndex, if_neg h.append, h.parsed]
  exact ⟨⟨⟨hs, rfl, fun _ => le_rfl, rfl, fun _ hb => Or.inl hb⟩, rfl⟩, Or.inl ⟨rfl, rfl⟩⟩

section

variable {v : Pjson} {ts us : List Bytes} {l : Location} {xs : List Pjson} {token : Bytes}

/-- A path that leads to an array and goes on with such a token. -/
theorem resolvePatchTokens_rejects (hv : v.Addressable) (hrefers : Refers v ts l (.jsonArray xs))
    (h : Malformed token) {count : Nat} (hfar : ts.length < count) (hcount : count + 1 < 2 ^ 64)
    (pointer : Bytes) :
    Rejects (resolvePatchTokens v (ts ++ token :: us) count pointer) token (resolveCost count) := by
  have htake : (ts ++ token :: us).take count = ts ++ token :: us.take (count - ts.length - 1) := by
    obtain ⟨k, rfl⟩ := Nat.exists_eq_add_of_lt hfar
    rw [show ts.length + k + 1 = ts.length + (k + 1) by omega, List.take_append, List.take_of_length_le (by omega),
      Nat.add_sub_cancel_left, List.take_succ_cons, Nat.add_sub_cancel]
  have hresolve : resolvePointerTokens v (ts ++ token :: us) count pointer = .error
      ⟨.InvalidArrayIndex, pointer, ts.length, token, "JSON Pointer array index is not canonical decimal"⟩ := by
    rw [resolvePointerTokens, htake, resolvePointerTokensFrom_append hrefers hv, resolvePointerTokensFrom,
      if_neg h.append, h.parsed, zero_add]
    rfl
  unfold resolvePatchTokens
  refine Rejects.free (addSize_follows hcount) ?_
  rw [← add_zero (resolveCost count)]
  refine Rejects.after (chargePatch_follows _ _ _) ?_
  rw [hresolve]
  intro s hs
  exact ⟨⟨⟨hs, rfl, fun _ => le_rfl, rfl, fun _ hb => Or.inl hb⟩, rfl⟩, Or.inl ⟨rfl, rfl⟩⟩

/-- An edit meets the token on the way to the container, or in it. -/
theorem parent_rejects (hv : v.Addressable) (hrefers : Refers v ts l (.jsonArray xs)) (h : Malformed token)
    (hlength : (ts ++ token :: us).length < 2 ^ 64) (pointer : Bytes) {k : Location → AccountM α}
    (hk : ∀ loc, us = [] → v.get loc = some (.jsonArray xs) → Rejects (k loc) token 0) :
    Rejects (resolvePatchTokens v (ts ++ token :: us) ((ts ++ token :: us).length - 1) pointer >>= k) token
      (resolveCost ((ts ++ token :: us).length - 1)) := by
  have hcount : (ts ++ token :: us).length - 1 + 1 < 2 ^ 64 := by
    rw [List.length_append, List.length_cons] at hlength ⊢
    omega
  by_cases hus : us = []
  · subst hus
    have htake : (ts ++ [token]).take ((ts ++ [token]).length - 1) = ts := by
      rw [List.length_append, List.length_singleton, Nat.add_sub_cancel, List.take_left]
    have hresolve := resolvePatchTokens_follows hv (ts ++ [token]) hcount pointer
    rw [htake, (refers_iff.mp hrefers).1] at hresolve
    rw [← add_zero (resolveCost _)]
    exact Rejects.after hresolve (hk l rfl hrefers.get)
  · have hpos := List.length_pos_iff.mpr hus
    refine (resolvePatchTokens_rejects hv hrefers h ?_ hcount pointer).bind
    rw [List.length_append, List.length_cons]
    omega

/-- A path has a last token, and which one it is if nothing comes behind `token`. -/
theorem exists_last (ts : List Bytes) (token : Bytes) (us : List Bytes) :
    ∃ last, (ts ++ token :: us).getLast? = some last ∧ (us = [] → last = token) := by
  refine ⟨(ts ++ token :: us).getLast (by simp), List.getLast?_eq_some_getLast _, ?_⟩
  rintro rfl
  exact List.getLast_concat

/-- `add`: the walk reaches the array, if the account can pay for it. -/
theorem addOwnedAtPointer_rejects (hv : v.Addressable) (hrefers : Refers v ts l (.jsonArray xs))
    (h : Malformed token) (hlength : (ts ++ token :: us).length < 2 ^ 64) (pointer : Bytes) (value : Pjson) :
    Rejects (addOwnedAtPointer v (ts ++ token :: us) pointer value) token
      (resolveCost ((ts ++ token :: us).length - 1)) := by
  obtain ⟨last, hlast⟩ := exists_last ts token us
  rw [addOwnedAtPointer, hlast.1]
  refine parent_rejects hv hrefers h hlength pointer fun loc hus hget => ?_
  rw [hget, hlast.2 hus]
  exact (patchArrayIndex_rejects h _ _ _).bind

/-- `replace`: so does this one. -/
theorem replaceAtPointer_rejects (hv : v.Addressable) (hrefers : Refers v ts l (.jsonArray xs))
    (h : Malformed token) (hlength : (ts ++ token :: us).length < 2 ^ 64) (pointer : Bytes) (value : Pjson) :
    Rejects (replaceAtPointer v (ts ++ token :: us) pointer value) token
      (resolveCost ((ts ++ token :: us).length - 1)) := by
  obtain ⟨last, hlast⟩ := exists_last ts token us
  rw [replaceAtPointer, hlast.1]
  refine parent_rejects hv hrefers h hlength pointer fun loc hus hget => ?_
  rw [hget, hlast.2 hus]
  exact (patchArrayIndex_rejects h _ _ _).bind

/-- `remove`: and this one. -/
theorem detachAtPointer_rejects (hv : v.Addressable) (hrefers : Refers v ts l (.jsonArray xs))
    (h : Malformed token) (hlength : (ts ++ token :: us).length < 2 ^ 64) (nodeSize : Nat) (pointer : Bytes) :
    Rejects (detachAtPointer nodeSize v (ts ++ token :: us) pointer) token
      (resolveCost ((ts ++ token :: us).length - 1)) := by
  obtain ⟨last, hlast⟩ := exists_last ts token us
  rw [detachAtPointer, hlast.1]
  refine parent_rejects hv hrefers h hlength pointer fun loc hus hget => ?_
  rw [hget, hlast.2 hus]
  exact (patchArrayIndex_rejects h _ _ _).bind

end

/-! ## The pointers an operation follows -/

/-- An operation on `v` follows a pointer in a document, having paid so much by the end of it. -/
inductive Reads (nodeSize : Nat) (v : Pjson) : Operation → Pjson → List Bytes → Cost → Prop
  | add (path : List Bytes) (value : Pjson) : Reads nodeSize v (.add path value) v path
      (decodeCost path + (cloneCost nodeSize value + resolveCost (path.length - 1)))
  | remove (path : List Bytes) : Reads nodeSize v (.remove path) v path
      (decodeCost path + resolveCost (path.length - 1))
  | replace (path : List Bytes) (value : Pjson) : Reads nodeSize v (.replace path value) v path
      (decodeCost path + (cloneCost nodeSize value + resolveCost (path.length - 1)))
  | test (path : List Bytes) (value : Pjson) : Reads nodeSize v (.test path value) v path
      (decodeCost path + resolveCost path.length)
  | moveSource (source path : List Bytes) : Reads nodeSize v (.move source path) v source
      (decodeCost path + (decodeCost source + resolveCost source.length))
  | copySource (source path : List Bytes) : Reads nodeSize v (.copy source path) v source
      (decodeCost path + (decodeCost source + resolveCost source.length))
  /-- The source is there, and has been copied. -/
  | copyPath {source path : List Bytes} {x : Pjson} : Rfc6901.evaluate source v = some x →
      Reads nodeSize v (.copy source path) v path (decodeCost path + (decodeCost source +
        (resolveCost source.length + (cloneCost nodeSize x + resolveCost (path.length - 1)))))
  /-- The source has been taken out. -/
  | movePath {source path : List Bytes} {left : Pjson} : ¬ source <+: path →
      Rfc6902.remove source v = some left → Reads nodeSize v (.move source path) left path
        (decodeCost path + (decodeCost source + (resolveCost source.length +
          (removeCost nodeSize source v + resolveCost (path.length - 1)))))

section

variable {e : Enumeration} {nodeSize : Nat} {v w : Pjson} {members : List (Bytes × Pjson)}
  {ts us : List Bytes} {l : Location} {xs : List Pjson} {token : Bytes}

/-- What is done before an operation is performed. -/
theorem rejects_of_perform (hm : Measurable members) {op : Bytes} (hknown : op ∈ knownOperations)
    (hop : Assoc.find (ascii "op") members = some (.jsonString op)) {path : List Bytes}
    (hpath : Assoc.find (ascii "path") members = some (.jsonString (pointerText path))) {c : Cost}
    (h : Rejects (perform e nodeSize v members op (pointerText path) path) token c) :
    Rejects (applyOperation e nodeSize v (.jsonObject members)) token (decodeCost path + c) := by
  have hdecode := decodePatchPointer_follows (hm _ _ hpath) false
  rw [decodePointer_ok_iff.mpr rfl] at hdecode
  rw [applyOperation, stringMember, hop]
  dsimp only
  rw [pure_bind]
  refine Rejects.free (setError_follows fun _ => by rfl) ?_
  rw [if_neg (not_not.mpr hknown), stringMember, hpath]
  dsimp only
  rw [pure_bind]
  refine Rejects.free (setError_follows fun _ => by rfl) ?_
  exact Rejects.after hdecode h

/-- What is done before a source is followed. -/
theorem rejects_of_source (hm : Measurable members) {op : Bytes}
    (hname : op = ascii "move" ∨ op = ascii "copy") {source : List Bytes}
    (hfrom : Assoc.find (ascii "from") members = some (.jsonString (pointerText source)))
    {path : Bytes} {pathTokens : List Bytes} {c : Cost}
    (h : Rejects (resolvePatchTokens v source source.length (pointerText source) >>= fun loc =>
      match v.get loc with
      | none => failPatch .InternalError ""
      | some x => transfer e nodeSize v x (decide (op = ascii "copy")) path pathTokens (pointerText source)
          source) token c) :
    Rejects (perform e nodeSize v members op path pathTokens) token (decodeCost source + c) := by
  rw [perform, if_pos hname]
  exact Rejects.after (fromMember_of (hm _ _ hfrom) hfrom) h

/-- The source is found. -/
theorem rejects_of_transfer (hv : v.Addressable) {source : List Bytes} (hsource : source.length + 1 < 2 ^ 64)
    {x : Pjson} (heval : Rfc6901.evaluate source v = some x) (pointer : Bytes) {c : Cost}
    {k : Pjson → AccountM Pjson} (h : Rejects (k x) token c) :
    Rejects (resolvePatchTokens v source source.length pointer >>= fun loc =>
      match v.get loc with
      | none => failPatch .InternalError ""
      | some x => k x) token (resolveCost source.length + c) := by
  obtain ⟨loc, hloc, hget⟩ := Option.bind_eq_some_iff.mp heval
  have hresolve := resolvePatchTokens_follows hv source hsource pointer
  rw [List.take_length, hloc] at hresolve
  refine Rejects.after hresolve ?_
  rw [hget]
  exact h

/-- The target of a move is followed in what the source leaves. -/
theorem transfer_rejects (hv : v.Addressable) {source : List Bytes} (hsource : source.length < 2 ^ 64)
    {left x : Pjson} (hnot : ¬ source <+: ts ++ token :: us) (hleft : Rfc6902.remove source v = some left)
    (hrefers : Refers left ts l (.jsonArray xs)) (h : Malformed token)
    (hlength : (ts ++ token :: us).length < 2 ^ 64) (path pointer : Bytes) :
    Rejects (transfer e nodeSize v x false path (ts ++ token :: us) pointer source) token
      (removeCost nodeSize source v + resolveCost ((ts ++ token :: us).length - 1)) := by
  have hsame : source ≠ ts ++ token :: us := fun heq => hnot (heq ▸ List.prefix_refl _)
  have hroot : source ≠ [] := fun heq => hnot (heq ▸ List.nil_prefix)
  obtain ⟨removed, heval⟩ := evaluate_of_remove hleft
  have hdetach := detachAtPointer_follows nodeSize hv hsource pointer
  rw [detached, hleft, Option.bind_some, heval, Option.map_some] at hdetach
  rw [transfer, if_neg Bool.false_ne_true, if_neg hsame, if_neg hroot, if_neg fun hbelow => hnot hbelow.2]
  refine Rejects.after hdetach ?_
  exact addOwnedAtPointer_rejects ((nodes_le_of_remove hleft).trans_lt hv) hrefers h hlength _ _

/-- **An operation rejects** a malformed token in a pointer it follows. -/
theorem applyOperation_rejects (hv : v.Addressable) (hm : Measurable members) {operation : Operation}
    (hdenotes : Denotes members operation) {d : Cost}
    (hreads : Reads nodeSize v operation w (ts ++ token :: us) d)
    (hrefers : Refers w ts l (.jsonArray xs)) (h : Malformed token) :
    Rejects (applyOperation e nodeSize v (.jsonObject members)) token d := by
  -- The malformed token is one that the code still steps through.
  have hfar : ts.length < (ts ++ token :: us).length := by
    rw [List.length_append, List.length_cons]
    omega
  generalize htokens : ts ++ token :: us = tokens at hreads
  cases hreads with
  | add path value =>
    cases hdenotes with
    | add hop hpath hvalue =>
      have hlength := hm.tokens hpath
      subst htokens
      refine rejects_of_perform hm (by decide) hop hpath ?_
      rw [perform, if_neg (by decide), if_pos rfl, valueMember_of hvalue, pure_bind]
      -- The value is measured before the target is looked for, so a budget may end it first.
      refine Rejects.after (measureClone_follows e nodeSize value) ?_
      exact addOwnedAtPointer_rejects hv hrefers h (by omega) _ _
  | remove path =>
    cases hdenotes with
    | remove hop hpath =>
      have hlength := hm.tokens hpath
      subst htokens
      refine rejects_of_perform hm (by decide) hop hpath ?_
      rw [perform, if_neg (by decide), if_neg (by decide), if_pos rfl]
      exact (detachAtPointer_rejects hv hrefers h (by omega) _ _).bind
  | replace path value =>
    cases hdenotes with
    | replace hop hpath hvalue =>
      have hlength := hm.tokens hpath
      subst htokens
      refine rejects_of_perform hm (by decide) hop hpath ?_
      rw [perform, if_neg (by decide), if_neg (by decide), if_neg (by decide), if_pos rfl,
        valueMember_of hvalue, pure_bind]
      refine Rejects.after (measureClone_follows e nodeSize value) ?_
      exact replaceAtPointer_rejects hv hrefers h (by omega) _ _
  | test path value =>
    cases hdenotes with
    | test hop hpath hvalue =>
      have hlength := hm.tokens hpath
      subst htokens
      refine rejects_of_perform hm (by decide) hop hpath ?_
      rw [perform, if_neg (by decide), if_neg (by decide), if_neg (by decide), if_neg (by decide),
        valueMember_of hvalue, pure_bind]
      exact (resolvePatchTokens_rejects hv hrefers h hfar hlength _).bind
  -- Here the token stands in from, which is resolved before path is.
  | moveSource source path =>
    cases hdenotes with
    | move hop hpath hfrom =>
      have hlength := hm.tokens hfrom
      subst htokens
      refine rejects_of_perform hm (by decide) hop hpath (rejects_of_source hm (Or.inl rfl) hfrom ?_)
      exact (resolvePatchTokens_rejects hv hrefers h hfar hlength _).bind
  | copySource source path =>
    cases hdenotes with
    | copy hop hpath hfrom =>
      have hlength := hm.tokens hfrom
      subst htokens
      refine rejects_of_perform hm (by decide) hop hpath (rejects_of_source hm (Or.inr rfl) hfrom ?_)
      exact (resolvePatchTokens_rejects hv hrefers h hfar hlength _).bind
  -- Here from has been resolved, and the token stands in path.
  | copyPath heval =>
    cases hdenotes with
    | copy hop hpath hfrom =>
      have hlength := hm.tokens hpath
      subst htokens
      refine rejects_of_perform hm (by decide) hop hpath (rejects_of_source hm (Or.inr rfl) hfrom ?_)
      refine rejects_of_transfer hv (hm.tokens hfrom) heval _ ?_
      rw [decide_eq_true rfl, transfer, if_pos rfl]
      refine Rejects.after (measureClone_follows e nodeSize _) ?_
      exact addOwnedAtPointer_rejects hv hrefers h (by omega) _ _
  | movePath hnot hleft =>
    cases hdenotes with
    | move hop hpath hfrom =>
      have hlength := hm.tokens hpath
      have hlength' := hm.tokens hfrom
      -- What path meets is the document without the source.
      obtain ⟨removed, heval⟩ := evaluate_of_remove hleft
      subst htokens
      refine rejects_of_perform hm (by decide) hop hpath (rejects_of_source hm (Or.inl rfl) hfrom ?_)
      refine rejects_of_transfer hv hlength' heval _ ?_
      exact transfer_rejects hv (by omega) hnot hleft hrefers h (by omega) _ _

end

/-! ## A patch -/

section

variable {e : Enumeration} {nodeSize : Nat} {token : Bytes}

/-- The loop comes to the operation that rejects the token, if the account can pay for the way. -/
theorem applyOperations_rejects (hsize : 2 ≤ nodeSize) {before after : List Pjson} {element : Pjson}
    (hwf : ∀ x ∈ before, x.WF) (hm : MeasurablePatch before) {v v' : Pjson} {c d : Cost}
    (hcharges : Charges nodeSize before v c v')
    (h : Workable v' → Rejects (applyOperation e nodeSize v' element) token d) (i : Nat) {s : Account}
    (hs : Ready nodeSize s v) :
    Ends (applyOperations e nodeSize i v (before ++ element :: after)) s (fun _ _ => False) fun _ t =>
      (t.error.code = .InvalidArrayIndex ∧ t.error.token = token ∧ t.error.opIndex = i + before.length) ∨
        t.error.code = .ResourceLimit ∧ ¬ s.budget.Fits (c + d) := by
  induction before generalizing i v c s with
  | nil =>
    cases hcharges
    rw [List.nil_append, applyOperations, ends_bind, setError, ends_modify, ends_bind, zero_add]
    refine Ends.mono (h (hs.workable hsize) _ ?_) (fun _ _ hno => hno.elim) ?_
    · exact hs.sound
    rintro _ t ⟨honward, ⟨hcode, htoken⟩ | hlimit⟩
    · exact Or.inl ⟨hcode, htoken, honward.opIndex⟩
    · exact Or.inr hlimit
  | cons x before ih =>
    cases hcharges with
    | @cons _ _ _ v₁ _ c₁ c₂ hbills hrest =>
      have hwf' := hwf x List.mem_cons_self
      obtain ⟨r, cost, hbills', hfollows⟩ := applyOperation_follows e nodeSize (hs.workable hsize) hwf'
        (hm x List.mem_cons_self)
      obtain ⟨rfl, hcost⟩ := Bills.unique hbills hbills'
      cases hcost rfl
      rw [List.cons_append, applyOperations, ends_bind, setError, ends_modify, ends_bind]
      refine Ends.mono (hfollows _ ?_) ?_ ?_
      · exact hs.sound
      · rintro v₂ t ⟨hv, hspent⟩
        cases hv
        have hready := hs.step hwf' hbills hspent.sound hspent.used
        refine (ih (fun y hy => hwf y (List.mem_cons_of_mem _ hy))
          (fun y hy => hm y (List.mem_cons_of_mem _ hy)) hrest (i + 1) hready).mono (fun _ _ hno => hno) ?_
        rintro _ u (⟨hcode, htoken, hindex⟩ | ⟨hcode, hfit⟩)
        · refine Or.inl ⟨hcode, htoken, ?_⟩
          rw [hindex, List.length_cons]
          omega
        · refine Or.inr ⟨hcode, fun hfits => hfit (hspent.fits_iff.mpr ?_)⟩
          rw [← add_assoc]
          exact hfits
      · rintro _ t ⟨-, hlimit⟩
        obtain ⟨hcode, hfit⟩ := hlimit rfl
        refine Or.inr ⟨hcode, fun hfits => hfit (hfits.mono ?_)⟩
        rw [add_assoc]
        exact le_self_add

/-- **A patch rejects** a malformed token that one of its operations comes to, if the operations before
    it have a result. -/
theorem applyPatch_malformed (e : Enumeration) (hsize : 2 ≤ nodeSize) {target v w : Pjson}
    {before after : List Pjson} {members : List (Bytes × Pjson)} {operation : Operation} {c d : Cost}
    {ts us : List Bytes} {l : Location} {xs : List Pjson} (htarget : target.WF)
    (hpatch : (Pjson.jsonArray (before ++ .jsonObject members :: after)).WF)
    (hmemory : (Pjson.jsonArray (before ++ .jsonObject members :: after)).textBytes + 1 < 2 ^ 64)
    (hcharges : Charges nodeSize before target c v) (hdenotes : Denotes members operation)
    (hreads : Reads nodeSize v operation w (ts ++ token :: us) d)
    (hrefers : Refers w ts l (.jsonArray xs)) (h : Malformed token) (aOpts : PatchOptions) :
    ∃ error, target.applyPatch e nodeSize (.jsonArray (before ++ .jsonObject members :: after)) aOpts =
        ⟨false, target, error⟩ ∧
      ((error.code = .InvalidArrayIndex ∧ error.token = token ∧ error.opIndex = before.length) ∨
        error.code = .ResourceLimit ∧ ¬ ∀ resource,
          patchCost nodeSize target (before ++ .jsonObject members :: after) (c + d) resource ≤
            (aOpts.effective resource).toNat) := by
  have hm := measurablePatch_of_textBytes hmemory
  have hmember : Measurable members := hm _ (by simp) members rfl
  have hrejects : Workable v → Rejects (applyOperation e nodeSize v (.jsonObject members)) token d :=
    fun hv => applyOperation_rejects hv.addressable hmember hdenotes hreads hrefers h
  have hends : Ends (applyPatchTo e nodeSize target (.jsonArray (before ++ .jsonObject members :: after)))
      (opened aOpts) (fun _ _ => False) fun _ t =>
      (t.error.code = .InvalidArrayIndex ∧ t.error.token = token ∧ t.error.opIndex = before.length) ∨
        t.error.code = .ResourceLimit ∧ ¬ (opened aOpts).budget.Fits
          (patchCost nodeSize target (before ++ .jsonObject members :: after) (c + d)) := by
    -- Counting the operations and copying the target come first, and may end the call.
    have hfollows := (chargePatch_follows .operations (before ++ .jsonObject members :: after).length
      "JSON Patch operation budget exceeded").seq (f := fun _ => measureClone e nodeSize target)
        (measureClone_follows e nodeSize target)
    rw [applyPatchTo, ← bind_assoc, ends_bind]
    refine (hfollows (opened aOpts) (PatchBudget.sound_ofOptions aOpts)).mono ?_ ?_
    · rintro _ s ⟨-, hspent⟩
      have hbefore : ∀ x ∈ before, x ∈ before ++ .jsonObject members :: after := fun x hx =>
        List.mem_append_left _ hx
      refine (applyOperations_rejects hsize (fun x hx => Pjson.wf_array.mp hpatch x (hbefore x hx))
        (fun x hx => hm x (hbefore x hx)) hcharges hrejects 0 (.of_copied htarget hspent)).mono
          (fun _ _ hno => hno) ?_
      rintro _ t (⟨hcode, htoken, hindex⟩ | ⟨hcode, hfit⟩)
      · exact Or.inl ⟨hcode, htoken, hindex.trans (Nat.zero_add _)⟩
      · refine Or.inr ⟨hcode, fun hfits => hfit (hspent.fits_iff.mpr ?_)⟩
        rw [add_assoc]
        exact hfits
    · rintro _ t ⟨-, hlimit⟩
      obtain ⟨hcode, hfit⟩ := hlimit rfl
      refine Or.inr ⟨hcode, fun hfits => hfit (hfits.mono ?_)⟩
      rw [patchCost, ← add_assoc]
      exact le_self_add
  -- No run of the body succeeds, so the target is published as it was.
  rcases publishPatch_of_ends target hends with ⟨_, _, hno, -⟩ | ⟨t, herror, hrun⟩
  · exact hno.elim
  · refine ⟨t.error, hrun, herror.imp_right ?_⟩
    exact fun hlimit => ⟨hlimit.1, fun hfits => hlimit.2 (opened_fits.mpr hfits)⟩

end

end Patch

open Patch

/-- What is promised about the errors for an index token. -/
structure IndexContract (token : Bytes) : Prop where
  classified : Classified token (parsePointerIndex token)
  findRange : ∀ (v : Pjson) (pointer : Bytes) (e : PointerError),
    v.findPointer pointer = .error e → e.token = token → e.code = .ArrayIndexOutOfRange →
      ∃ n, token = numeral n
  findMalformed : ∀ (v : Pjson) (ts us : List Bytes) (l : Location) (xs : List Pjson),
    v.Addressable → Refers v ts l (.jsonArray xs) → token ≠ [0x2D] → (∀ n, token ≠ numeral n) →
      ∃ e, v.findPointer (pointerText (ts ++ token :: us)) = .error e ∧
        e.code = .InvalidArrayIndex ∧ e.token = token
  patchRange : ∀ (parent : List Pjson) (allow : Bool) (i : Nat) (s t : Account),
    (patchArrayIndex parent token allow i).run s = .error () t →
      t.error.code = .ArrayIndexOutOfRange → ∃ n, token = numeral n
  patchMalformed : ∀ (parent : List Pjson) (allow : Bool) (i : Nat) (s : Account),
    token ≠ [0x2D] → (∀ n, token ≠ numeral n) →
      ∃ t, (patchArrayIndex parent token allow i).run s = .error () t ∧
        t.error.code = .InvalidArrayIndex ∧ t.error.token = token
  pathRange : ∀ (root : Pjson) (tokens : List Bytes) (count : Nat) (pointer : Bytes) (s t : Account),
    (resolvePatchTokens root tokens count pointer).run s = .error () t → t.error.token = token →
      t.error.code = .ArrayIndexOutOfRange → ∃ n, token = numeral n
  pathMalformed : ∀ (root : Pjson) (ts us : List Bytes) (l : Location) (xs : List Pjson) (count : Nat)
    (pointer : Bytes) (s : Account),
    root.Addressable → Refers root ts l (.jsonArray xs) → ts.length < count → count + 1 < 2 ^ 64 →
    s.budget.Sound → token ≠ [0x2D] → (∀ n, token ≠ numeral n) →
      ∃ t, (resolvePatchTokens root (ts ++ token :: us) count pointer).run s = .error () t ∧
        (t.error.code = .InvalidArrayIndex ∧ t.error.token = token ∨
          t.error.code = .ResourceLimit ∧ ¬ s.budget.Fits (resolveCost count))
  /-- A whole patch, whatever it is applied to. -/
  applyRange : ∀ (e : Enumeration) (nodeSize : Nat) (target aPatch : Pjson) (aOpts : PatchOptions),
    (target.applyPatch e nodeSize aPatch aOpts).error.token = token →
    (target.applyPatch e nodeSize aPatch aOpts).error.code = .ArrayIndexOutOfRange →
      ∃ n, token = numeral n
  /-- A whole patch that comes to an operation which follows a pointer to the token, in an array. -/
  applyMalformed : ∀ (e : Enumeration) (nodeSize : Nat) (target v w : Pjson) (before after : List Pjson)
    (members : List (Bytes × Pjson)) (operation : Operation) (c d : Cost) (ts us : List Bytes)
    (l : Location) (xs : List Pjson) (aOpts : PatchOptions),
    2 ≤ nodeSize → target.WF → (Pjson.jsonArray (before ++ .jsonObject members :: after)).WF →
    (Pjson.jsonArray (before ++ .jsonObject members :: after)).textBytes + 1 < 2 ^ 64 →
    Charges nodeSize before target c v → Denotes members operation →
    Reads nodeSize v operation w (ts ++ token :: us) d → Refers w ts l (.jsonArray xs) →
    token ≠ [0x2D] → (∀ n, token ≠ numeral n) →
      ∃ error, target.applyPatch e nodeSize (.jsonArray (before ++ .jsonObject members :: after)) aOpts =
          ⟨false, target, error⟩ ∧
        ((error.code = .InvalidArrayIndex ∧ error.token = token ∧ error.opIndex = before.length) ∨
          error.code = .ResourceLimit ∧ ¬ ∀ resource,
            patchCost nodeSize target (before ++ .jsonObject members :: after) (c + d) resource ≤
              (aOpts.effective resource).toNat)

/-- A patch does not take a malformed token for an index out of range, -/
theorem patchArrayIndex_range {parent : List Pjson} {token : Bytes} {allow : Bool} {i : Nat}
    {s t : Account} (h : (patchArrayIndex parent token allow i).run s = .error () t)
    (hcode : t.error.code = .ArrayIndexOutOfRange) : parsePointerIndex token ≠ .PointerIndexInvalid := by
  intro hparse
  rw [patchArrayIndex, hparse] at h
  by_cases happend : token = [0x2D]
  · rw [if_pos happend] at h
    split_ifs at h
    · cases h
    · cases h
      cases hcode
  · rw [if_neg happend] at h
    cases h
    cases hcode

/-- and says so without paying for anything. -/
theorem patchArrayIndex_malformed {parent : List Pjson} {token : Bytes} {allow : Bool} {i : Nat}
    {s : Account} (happend : token ≠ [0x2D])
    (hparse : parsePointerIndex token = .PointerIndexInvalid) :
    ∃ t, (patchArrayIndex parent token allow i).run s = .error () t ∧
      t.error.code = .InvalidArrayIndex ∧ t.error.token = token := by
  rw [patchArrayIndex, if_neg happend, hparse]
  exact ⟨_, rfl, rfl, rfl⟩

/-- What a run that fails has satisfied. -/
theorem error_of_ends {ε σ α : Type} {x : EStateM ε σ α} {s t : σ} {e : ε} {Q : α → σ → Prop}
    {R : ε → σ → Prop} (h : Ends x s Q R) (hx : x.run s = .error e t) : R e t := by
  unfold Ends at h
  rw [hx] at h
  exact h

/-- A program that rejects a token fails. -/
theorem Patch.Rejects.exists_run {α : Type} {x : AccountM α} {token : Bytes} {c : Cost}
    (h : Rejects x token c) {s : Account} (hs : s.budget.Sound) :
    ∃ t, x.run s = .error () t ∧ (t.error.code = .InvalidArrayIndex ∧ t.error.token = token ∨
      t.error.code = .ResourceLimit ∧ ¬ s.budget.Fits c) := by
  have hends := h s hs
  unfold Ends at hends
  cases hrun : x.run s with
  | ok a t =>
    rw [hrun] at hends
    exact hends.elim
  | error e t =>
    rw [hrun] at hends
    exact ⟨t, rfl, hends.2⟩

/-- What a patch reports as out of range has been read as an index. -/
theorem applyPatch_range {e : Enumeration} {nodeSize : Nat} {target aPatch : Pjson} {aOpts : PatchOptions}
    (hcode : (target.applyPatch e nodeSize aPatch aOpts).error.code = .ArrayIndexOutOfRange) :
    parsePointerIndex (target.applyPatch e nodeSize aPatch aOpts).error.token ≠ .PointerIndexInvalid := by
  have hends := applyPatchTo_rangeRead e nodeSize target aPatch (opened aOpts)
  rw [Pjson.applyPatch] at hcode ⊢
  rcases publishPatch_of_ends target hends with ⟨v, t, -, hrun⟩ | ⟨t, herror, hrun⟩
  · rw [hrun] at hcode
    cases hcode
  · rw [hrun] at hcode ⊢
    exact herror hcode

/-- **Index tokens are classified by syntax before range** exactly if no fault comes behind more
    digits than fit into a `size_t`. -/
theorem indexContract_iff (token : Bytes) : IndexContract token ↔ ¬ LateFault token := by
  refine ⟨fun h => h.classified.not_late, fun hlate => ?_⟩
  have hclass := classified_of_not_late hlate
  have hinvalid : (∀ n, token ≠ numeral n) → parsePointerIndex token = .PointerIndexInvalid := by
    intro hnot
    generalize parsePointerIndex token = r at hclass
    cases hclass with
    | index n hn => exact absurd hn (hnot n)
    | large n hn => exact absurd hn (hnot n)
    | malformed => rfl
  have hnumeral : parsePointerIndex token ≠ .PointerIndexInvalid → ∃ n, token = numeral n := by
    intro hparse
    by_contra hnot
    exact hparse (hinvalid (not_exists.mp hnot))
  constructor
  · exact hclass
  · rintro v pointer e hfind rfl hcode
    exact hnumeral (findPointer_range hfind hcode)
  · intro v ts us l xs hv h happend hnot
    exact findPointer_malformed hv h happend (hinvalid hnot)
  · intro parent allow i s t h hcode
    exact hnumeral (patchArrayIndex_range h hcode)
  · intro parent allow i s happend hnot
    exact patchArrayIndex_malformed happend (hinvalid hnot)
  · rintro root tokens count pointer s t h rfl hcode
    exact hnumeral (error_of_ends (resolvePatchTokens_rangeRead root tokens count pointer s) h hcode)
  · intro root ts us l xs count pointer s hroot hrefers hfar hcount hs happend hnot
    exact (resolvePatchTokens_rejects hroot hrefers ⟨happend, hinvalid hnot⟩ hfar hcount pointer).exists_run hs
  · rintro e nodeSize target aPatch aOpts rfl hcode
    exact hnumeral (applyPatch_range hcode)
  · intro e nodeSize target v w before after members operation c d ts us l xs aOpts hsize htarget hpatch
      hmemory hcharges hdenotes hreads hrefers happend hnot
    exact applyPatch_malformed e hsize htarget hpatch hmemory hcharges hdenotes hreads hrefers
      ⟨happend, hinvalid hnot⟩ aOpts

/-- Twenty nines and a letter. -/
theorem not_indexContract_late : ¬ IndexContract (List.replicate 20 0x39 ++ [0x78]) := by
  intro h
  exact h.classified.not_late (by decide +kernel)

end ByteDance

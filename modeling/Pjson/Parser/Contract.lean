/-
  What `pJsonParser::parse` promises, and exactly where it keeps the promise.

  `Accepts` is the promise on a text: it is a JSON text with some tree, within the limits, without
  repeated names where the policy refuses them, and every number in it can be represented.  The
  parser's own language (`parse_ok_iff`) speaks of the conversion the source implements, the promise
  of the value a token denotes; the two differ on the tokens whose range error the source attributes
  to the wrong side, because the explicit exponent it judges by is cut off at `kExponentCap`.
-/
import Pjson.Parser.Unambiguous

namespace ByteDance

/-! ## When a tree has a meaning -/

namespace Json

mutual
/-- No object of the tree repeats a name. -/
def DistinctNames : Json → Prop
  | .array xs => DistinctElements xs
  | .object ms => (Assoc.keys ms).Nodup ∧ DistinctMembers ms
  | _ => True
def DistinctElements : List Json → Prop
  | [] => True
  | x :: xs => DistinctNames x ∧ DistinctElements xs
def DistinctMembers : List (Bytes × Json) → Prop
  | [] => True
  | (_, x) :: ms => DistinctNames x ∧ DistinctMembers ms
end

variable {convert convert' : NumberToken → Option ParsedNumber} {policy : DuplicateKeyPolicy}

/-- The tree has a meaning: names are distinct where they have to be, numbers convert. -/
def Meaningful (convert : NumberToken → Option ParsedNumber) (policy : DuplicateKeyPolicy)
    (x : Json) : Prop :=
  (policy = .RejectDuplicateKeys → x.DistinctNames) ∧ ∀ t ∈ x.numbers, (convert t).isSome

theorem denoteElements_isSome_iff {xs : List Json}
    (h : ∀ x ∈ xs, (x.denote convert policy).isSome ↔ x.Meaningful convert policy) :
    (denoteElements convert policy xs).isSome ↔
      (policy = .RejectDuplicateKeys → DistinctElements xs) ∧
        ∀ t ∈ numbersElements xs, (convert t).isSome := by
  induction xs with
  | nil => simp [denoteElements, DistinctElements, numbersElements]
  | cons x xs ih =>
    have hx := h x (List.mem_cons_self ..)
    have hxs := ih fun y hy => h y (List.mem_cons_of_mem _ hy)
    simp only [Option.isSome_iff_exists] at hx hxs ⊢
    simp only [denoteElements_cons_iff, DistinctElements, numbersElements, List.forall_mem_append]
    constructor
    · rintro ⟨_, v, vs, -, hv, hvs⟩
      obtain ⟨h₁, h₂⟩ := hx.mp ⟨v, hv⟩
      obtain ⟨h₃, h₄⟩ := hxs.mp ⟨vs, hvs⟩
      exact ⟨fun hp => ⟨h₁ hp, h₃ hp⟩, fun t ht => Option.isSome_iff_exists.mp (h₂ t ht), h₄⟩
    · rintro ⟨h₁, h₂, h₃⟩
      obtain ⟨v, hv⟩ := hx.mpr ⟨fun hp => (h₁ hp).1, fun t ht => Option.isSome_iff_exists.mpr (h₂ t ht)⟩
      obtain ⟨vs, hvs⟩ := hxs.mpr ⟨fun hp => (h₁ hp).2, h₃⟩
      exact ⟨_, v, vs, rfl, hv, hvs⟩

/-- A member can be added unless its name is there and must not be repeated. -/
theorem addMember_isSome_iff {k : Bytes} {v : Pjson} {members : List (Bytes × Pjson)} :
    (addMember policy k v members).isSome ↔
      (policy = .RejectDuplicateKeys → k ∉ Assoc.keys members) := by
  unfold addMember
  by_cases hk : k ∈ Assoc.keys members
  · rw [if_pos hk]
    cases policy <;> simp [hk]
  · rw [if_neg hk]
    simp [hk]

/-- Under the rejecting policy an added member is a new one at the end. -/
theorem keys_addMember {k : Bytes} {v : Pjson} {members members' : List (Bytes × Pjson)}
    (h : addMember .RejectDuplicateKeys k v members = some members') :
    Assoc.keys members' = Assoc.keys members ++ [k] := by
  unfold addMember at h
  split_ifs at h
  · cases h
    simp [Assoc.keys]

theorem denoteMembers_isSome_iff {ms : List (Bytes × Json)} (members : List (Bytes × Pjson))
    (h : ∀ m ∈ ms, (m.2.denote convert policy).isSome ↔ m.2.Meaningful convert policy) :
    (denoteMembers convert policy members ms).isSome ↔
      (policy = .RejectDuplicateKeys →
        ((Assoc.keys ms).Nodup ∧ ∀ k ∈ Assoc.keys ms, k ∉ Assoc.keys members) ∧
          DistinctMembers ms) ∧
        ∀ t ∈ numbersMembers ms, (convert t).isSome := by
  induction ms generalizing members with
  | nil => simp [denoteMembers, DistinctMembers, numbersMembers, Assoc.keys]
  | cons m ms ih =>
    obtain ⟨k, x⟩ := m
    have hx := h (k, x) (List.mem_cons_self ..)
    have hms := fun members => ih members fun n hn => h n (List.mem_cons_of_mem _ hn)
    simp only [Option.isSome_iff_exists] at hx hms ⊢
    simp only [denoteMembers_cons_iff]
    constructor
    · rintro ⟨_, v, members₁, hv, hadd, hrest⟩
      obtain ⟨h₁, h₂⟩ := hx.mp ⟨v, hv⟩
      obtain ⟨h₃, h₄⟩ := (hms members₁).mp ⟨_, hrest⟩
      refine ⟨fun hp => ?_, ?_⟩
      -- Under the rejecting policy the key that has been added is new, here and behind it.
      · have hnew := addMember_isSome_iff.mp (Option.isSome_iff_exists.mpr ⟨_, hadd⟩) hp
        subst hp
        obtain ⟨⟨hnd, hdisj⟩, hdist⟩ := h₃ rfl
        rw [keys_addMember hadd] at hdisj
        refine ⟨⟨List.nodup_cons.mpr ⟨fun hk => ?_, hnd⟩, fun k' hk' => ?_⟩, h₁ rfl, hdist⟩
        · exact hdisj k hk (by simp)
        · rcases List.mem_cons.mp hk' with rfl | hk'
          · exact hnew
          · exact fun hm => hdisj k' hk' (by simp [hm])
      · intro t ht
        rcases List.mem_append.mp ht with ht | ht
        · exact Option.isSome_iff_exists.mp (h₂ t ht)
        · exact h₄ t ht
    · rintro ⟨h₁, h₂⟩
      obtain ⟨v, hv⟩ := hx.mpr ⟨fun hp => (h₁ hp).2.1, fun t ht =>
        Option.isSome_iff_exists.mpr (h₂ t (List.mem_append_left _ ht))⟩
      obtain ⟨members₁, hadd⟩ := Option.isSome_iff_exists.mp
        (addMember_isSome_iff.mpr fun hp => (h₁ hp).1.2 k (List.mem_cons_self ..) :
          (addMember policy k v members).isSome)
      -- The keys of the rest avoid those before them and the head.
      have hnames : policy = .RejectDuplicateKeys → ((Assoc.keys ms).Nodup ∧
          ∀ k ∈ Assoc.keys ms, k ∉ Assoc.keys members₁) ∧ DistinctMembers ms := by
        intro hp
        obtain ⟨⟨hnodup, hdisj⟩, -, hdist⟩ := h₁ hp
        subst hp
        obtain ⟨hk, hnd⟩ := List.nodup_cons.mp hnodup
        refine ⟨⟨hnd, fun k' hk' hm => ?_⟩, hdist⟩
        rw [keys_addMember hadd, List.mem_append, List.mem_singleton] at hm
        rcases hm with hm | rfl
        · exact hdisj k' (List.mem_cons_of_mem _ hk') hm
        · exact hk hk'
      obtain ⟨members', hrest⟩ := (hms members₁).mpr
        ⟨hnames, fun t ht => h₂ t (List.mem_append_right _ ht)⟩
      exact ⟨members', v, members₁, hv, hadd, hrest⟩

/-- **A tree has a meaning** exactly if names are distinct where they have to be and every number
    converts. -/
theorem denote_isSome_iff (x : Json) :
    (x.denote convert policy).isSome ↔ x.Meaningful convert policy := by
  induction x using Json.induct with
  | null => simp [denote, Meaningful, DistinctNames, numbers]
  | bool b => simp [denote, Meaningful, DistinctNames, numbers]
  | number t => simp [denote, Meaningful, DistinctNames, numbers]
  | string s => simp [denote, Meaningful, DistinctNames, numbers]
  | array xs ih =>
    rw [denote, Option.isSome_map, denoteElements_isSome_iff ih]
    rfl
  | object ms ih =>
    rw [denote, Option.isSome_map, denoteMembers_isSome_iff [] ih]
    simp [Meaningful, DistinctNames, numbers, Assoc.keys]

/-- The meaning depends only on the numbers that occur. -/
theorem denote_congr (x : Json) (h : ∀ t ∈ x.numbers, convert t = convert' t) :
    x.denote convert policy = x.denote convert' policy := by
  induction x using Json.induct with
  | null => rfl
  | bool b => rfl
  | number t => rw [denote, denote, h t (by simp [numbers])]
  | string s => rfl
  | array xs ih =>
    rw [denote, denote]
    congr 1
    rw [numbers] at h
    induction xs with
    | nil => rfl
    | cons x xs ihs =>
      rw [denoteElements, denoteElements,
        ih x (List.mem_cons_self ..) fun t ht => h t (List.mem_append_left _ ht),
        ihs (fun y hy => ih y (List.mem_cons_of_mem _ hy)) fun t ht =>
          h t (List.mem_append_right _ ht)]
  | object ms ih =>
    rw [denote, denote]
    congr 1
    rw [numbers] at h
    suffices hgen : ∀ members, denoteMembers convert policy members ms =
        denoteMembers convert' policy members ms from hgen []
    induction ms with
    | nil => exact fun _ => rfl
    | cons m ms ihs =>
      intro members
      obtain ⟨k, x⟩ := m
      rw [denoteMembers, denoteMembers,
        ih (k, x) (List.mem_cons_self ..) fun t ht => h t (List.mem_append_left _ ht)]
      simp only [ihs (fun y hy => ih y (List.mem_cons_of_mem _ hy)) fun t ht =>
        h t (List.mem_append_right _ ht)]

end Json

/-! ## Misjudged tokens -/

namespace NumberToken

/-- An overflow that the source takes for an underflow, and accepts. -/
def Misaccepted (t : NumberToken) : Prop := t.Overflows ∧ t.CapTurns

/-- An underflow that the source takes for an overflow, and refuses although the policy has a value
    for it. -/
def Misrejected (lib : NumericLibrary) (policy : NumberPolicy) (t : NumberToken) : Prop :=
  t.ReportsUnderflow lib ∧ t.CapTurns ∧ (t.denote policy).isSome

/-- Only an explicit exponent can be capped. -/
theorem CapTurns.isFloat {t : NumberToken} (h : t.CapTurns) : t.isFloat = true := by
  by_contra hf
  have hexp : t.exp = none := by
    cases he : t.exp with
    | none => rfl
    | some e => simp [NumberToken.isFloat, he] at hf
  obtain ⟨k, -, hne⟩ := h
  apply hne
  unfold cappedExp expValue kExponentCap
  simp [hexp]

/-- A misaccepted token is converted. -/
theorem Misaccepted.convert {lib : NumericLibrary} {policy : NumberPolicy} {t : NumberToken}
    (h : t.Misaccepted) : (t.convert lib policy).isSome := by
  obtain ⟨ho, hc⟩ := h
  obtain ⟨h1, -, h3, -⟩ := Binary64.maxFinite_fields
  rw [convert_eq, if_pos hc.isFloat, parseDouble_misjudged_overflow ho hc]
  unfold ofDouble
  cases t.negative <;> simp [h1, h3]

/-- A misaccepted token denotes nothing. -/
theorem Misaccepted.denote {policy : NumberPolicy} {t : NumberToken} (h : t.Misaccepted) :
    t.denote policy = none := by
  have hinf : (Binary64.ofRat t.negative t.mag).isFinite = false := h.1
  unfold NumberToken.denote
  simp [h.2.isFloat, nearestDouble, hinf]

/-- A misrejected token is not converted. -/
theorem Misrejected.convert {lib : NumericLibrary} {policy : NumberPolicy} {t : NumberToken}
    (h : t.Misrejected lib policy) : t.convert lib policy = none := by
  obtain ⟨hu, hc, -⟩ := h
  rw [convert_eq, if_pos hc.isFloat, parseDouble_misjudged_underflow hu hc]
  rfl

/-- Every other token is converted to what it denotes. -/
theorem convert_eq_denote {lib : NumericLibrary} {policy : NumberPolicy} {t : NumberToken}
    (ha : ¬ t.Misaccepted) (hr : ¬ t.Misrejected lib policy) :
    t.convert lib policy = t.denote policy := by
  by_cases hm : t.Misjudged lib
  · obtain ⟨ho | hu, hc⟩ := hm
    · exact absurd ⟨ho, hc⟩ ha
    · have hnone : t.denote policy = none := by
        rw [← Option.not_isSome_iff_eq_none]
        exact fun hs => hr ⟨hu, hc, hs⟩
      rw [hnone, convert_eq, if_pos hc.isFloat, parseDouble_misjudged_underflow hu hc]
      rfl
  · exact convert_of_not_misjudged hm

end NumberToken

/-- The misjudged tokens of a list change nothing in whether all of it converts: another token is
    refused anyway, or both kinds of mistakes occur, or none. -/
def Harmless (lib : NumericLibrary) (policy : NumberPolicy) (ts : List NumberToken) : Prop :=
  (∃ t ∈ ts, t.denote policy = none ∧ ¬ t.Misaccepted) ∨
    ((∃ t ∈ ts, t.Misaccepted) ↔ ∃ t ∈ ts, t.Misrejected lib policy)

/-- **The numbers of a text** all convert exactly if all have a denotation, if and only if the
    mistakes among them are harmless. -/
theorem forall_convert_iff_harmless {lib : NumericLibrary} {policy : NumberPolicy}
    {ts : List NumberToken} :
    ((∀ t ∈ ts, (t.convert lib policy).isSome) ↔ ∀ t ∈ ts, (t.denote policy).isSome) ↔
      Harmless lib policy ts := by
  -- which tokens are refused by either side, sorted by the kind of mistake
  have hcode : (∀ t ∈ ts, (t.convert lib policy).isSome) ↔
      ¬ ((∃ t ∈ ts, t.denote policy = none ∧ ¬ t.Misaccepted) ∨
        ∃ t ∈ ts, t.Misrejected lib policy) := by
    constructor
    · rintro hall (⟨t, ht, hnone, ha⟩ | ⟨t, ht, hr⟩)
      · have hr : ¬ t.Misrejected lib policy := fun hr => by
          have := hr.2.2
          rw [hnone] at this
          cases this
        have := hall t ht
        rw [NumberToken.convert_eq_denote ha hr, hnone] at this
        cases this
      · have := hall t ht
        rw [hr.convert] at this
        cases this
    · intro hno t ht
      by_cases ha : t.Misaccepted
      · exact ha.convert
      · have hr : ¬ t.Misrejected lib policy := fun hr => hno (Or.inr ⟨t, ht, hr⟩)
        rw [NumberToken.convert_eq_denote ha hr, Option.isSome_iff_ne_none]
        exact fun hnone => hno (Or.inl ⟨t, ht, hnone, ha⟩)
  have hspec : (∀ t ∈ ts, (t.denote policy).isSome) ↔
      ¬ ((∃ t ∈ ts, t.denote policy = none ∧ ¬ t.Misaccepted) ∨ ∃ t ∈ ts, t.Misaccepted) := by
    constructor
    · rintro hall (⟨t, ht, hnone, -⟩ | ⟨t, ht, ha⟩)
      · have := hall t ht
        rw [hnone] at this
        cases this
      · have := hall t ht
        rw [ha.denote] at this
        cases this
    · intro hno t ht
      rw [Option.isSome_iff_ne_none]
      intro hnone
      by_cases ha : t.Misaccepted
      · exact hno (Or.inr ⟨t, ht, ha⟩)
      · exact hno (Or.inl ⟨t, ht, hnone, ha⟩)
  rw [hcode, hspec]
  unfold Harmless
  generalize (∃ t ∈ ts, t.denote policy = none ∧ ¬ t.Misaccepted) = refused
  generalize (∃ t ∈ ts, t.Misaccepted) = accepted
  generalize (∃ t ∈ ts, t.Misrejected lib policy) = rejected
  by_cases h : refused
  · simp [h]
  · simp only [h, false_or, not_iff_not]
    exact iff_comm

/-! ## The contract -/

/-- What makes a byte string acceptable: it spells the tree `x`, within the limits, names are
    distinct where repetition is refused, and every number is representable. -/
structure Accepts (opts : ParserOptions) (x : Json) (src : Bytes) : Prop where
  text : JsonText x src
  admits : opts.Admits x src
  meaningful : x.Meaningful (NumberToken.denote opts.numberPolicy) opts.duplicateKeys

/-- **The contract** on one input: success exactly on acceptable texts, and then the denotation. -/
def MeetsContract (lib : NumericLibrary) (opts : ParserOptions) (src : Bytes) : Prop :=
  ((parse lib opts src).2.ok = true ↔ ∃ x, Accepts opts x src) ∧
    ((parse lib opts src).2.ok = true → ∀ x, JsonText x src →
      x.denote (NumberToken.denote opts.numberPolicy) opts.duplicateKeys =
        some (parse lib opts src).1)

/-- When the parser succeeds, in terms of the conversion the source implements. -/
theorem parse_accepts_iff {lib : NumericLibrary} {opts : ParserOptions} {src : Bytes} :
    (parse lib opts src).2.ok = true ↔ ∃ x, JsonText x src ∧ opts.Admits x src ∧
      x.Meaningful (NumberToken.convert lib opts.numberPolicy) opts.duplicateKeys := by
  have h := parse_ok_iff lib opts src (parse lib opts src).1
  constructor
  · intro hok
    obtain ⟨x, hx, hadm, hden⟩ := h.mp ⟨hok, rfl⟩
    exact ⟨x, hx, hadm, x.denote_isSome_iff.mp (Option.isSome_iff_exists.mpr ⟨_, hden⟩)⟩
  · rintro ⟨x, hx, hadm, hmean⟩
    obtain ⟨v, hv⟩ := Option.isSome_iff_exists.mp (x.denote_isSome_iff.mpr hmean)
    exact ((parse_ok_iff lib opts src v).mpr ⟨x, hx, hadm, hv⟩).1

/-- **The parser meets its contract** on an input exactly if, whenever the input is a text within
    the limits without forbidden repetition, the mistakes about its numbers are harmless. -/
theorem parse_meetsContract_iff (lib : NumericLibrary) (opts : ParserOptions) (src : Bytes) :
    MeetsContract lib opts src ↔
      ∀ x, JsonText x src → opts.Admits x src →
        (opts.duplicateKeys = .RejectDuplicateKeys → x.DistinctNames) →
        Harmless lib opts.numberPolicy x.numbers := by
  constructor
  · rintro ⟨hiff, -⟩ x hx hadm hnames
    -- The document is the only one of its text, so both acceptances speak of its numbers.
    rw [← forall_convert_iff_harmless]
    rw [parse_accepts_iff] at hiff
    constructor
    · intro hconv
      obtain ⟨y, hy, -, hmean⟩ := hiff.mp ⟨x, hx, hadm, hnames, hconv⟩
      rw [jsonText_unique hx hy]
      exact hmean.2
    · intro hden
      obtain ⟨y, hy, -, hmean⟩ := hiff.mpr ⟨x, hx, hadm, hnames, hden⟩
      rw [jsonText_unique hx hy]
      exact hmean.2
  · intro h
    have hiff : (parse lib opts src).2.ok = true ↔ ∃ x, Accepts opts x src := by
      rw [parse_accepts_iff]
      constructor
      · rintro ⟨x, hx, hadm, hnames, hconv⟩
        exact ⟨x, hx, hadm, hnames,
          (forall_convert_iff_harmless.mpr (h x hx hadm hnames)).mp hconv⟩
      · rintro ⟨x, hx, hadm, hnames, hden⟩
        exact ⟨x, hx, hadm, hnames,
          (forall_convert_iff_harmless.mpr (h x hx hadm hnames)).mpr hden⟩
    -- The value: token by token, both conversions agree on what they accept.
    refine ⟨hiff, fun hok x hx => ?_⟩
    obtain ⟨y, hy, -, hden⟩ := (parse_ok_iff lib opts src _).mp ⟨hok, rfl⟩
    obtain ⟨z, hz⟩ := hiff.mp hok
    obtain rfl := jsonText_unique hx hy
    obtain rfl := jsonText_unique hx hz.text
    have hconv := (x.denote_isSome_iff.mp (Option.isSome_iff_exists.mpr ⟨_, hden⟩)).2
    rw [← hden]
    refine x.denote_congr fun t ht => (NumberToken.convert_eq_denote ?_ ?_).symm
    · intro ha
      have := hz.meaningful.2 t ht
      rw [ha.denote] at this
      cases this
    · intro hr
      have : (t.convert lib opts.numberPolicy).isSome := hconv t ht
      rw [hr.convert] at this
      cases this

/-! ## Texts within the cap -/

/-- Every number token of a tree is no longer than the tree's spelling. -/
def NumbersWithin (x : Json) : Prop :=
  ∀ t, Value x t → ∀ n ∈ x.numbers, n.text.length ≤ t.length

theorem numbersWithin_elements {xs : List Json} (hxs : ∀ x ∈ xs, NumbersWithin x) {t : Bytes}
    (h : Elements xs t) : ∀ n ∈ Json.numbersElements xs, n.text.length ≤ t.length := by
  induction xs generalizing t with
  | nil => cases h
  | cons x ys ih =>
    intro n hn
    obtain ⟨x', ys', w, s, r, hcons, rfl, -, hx, htail⟩ := h.split
    cases hcons
    simp only [List.length_append]
    rcases List.mem_append.mp hn with hn | hn
    · have := hxs x (List.mem_cons_self ..) s hx n hn
      omega
    · rcases htail with ⟨rfl, -⟩ | ⟨w', r', -, rfl, hr⟩
      · cases hn
      · have := ih (fun y hy => hxs y (List.mem_cons_of_mem _ hy)) hr n hn
        simp only [List.length_append, List.length_cons]
        omega

theorem numbersWithin_members {ms : List (Bytes × Json)} (hms : ∀ m ∈ ms, NumbersWithin m.2)
    {t : Bytes} (h : Members ms t) :
    ∀ n ∈ Json.numbersMembers ms, n.text.length ≤ t.length := by
  induction ms generalizing t with
  | nil => cases h
  | cons m ns ih =>
    intro n hn
    obtain ⟨k, kt, x, ns', w, w₁, w₂, s, r, hcons, rfl, -, -, -, -, hx, htail⟩ := h.split
    cases hcons
    simp only [List.length_append, List.length_cons]
    rcases List.mem_append.mp hn with hn | hn
    · have := hms (k, x) (List.mem_cons_self ..) s hx n hn
      omega
    · rcases htail with ⟨rfl, -⟩ | ⟨w', r', -, rfl, hr⟩
      · cases hn
      · have := ih (fun y hy => hms y (List.mem_cons_of_mem _ hy)) hr n hn
        simp only [List.length_append, List.length_cons]
        omega

theorem numbersWithin (x : Json) : NumbersWithin x := by
  induction x using Json.induct with
  | null => exact fun _ _ _ hn => by cases hn
  | bool b => exact fun _ _ _ hn => by cases hn
  | string s => exact fun _ _ _ hn => by cases hn
  | number t =>
    intro s h n hn
    cases h
    rw [List.mem_singleton.mp hn]
  | array xs ih =>
    intro t h n hn
    obtain ⟨s, rfl, ⟨rfl, -⟩ | htail⟩ := value_array_iff.mp h
    · cases hn
    · have := numbersWithin_elements ih htail n hn
      simp only [List.length_append, List.length_cons]
      omega
  | object ms ih =>
    intro t h n hn
    obtain ⟨s, rfl, ⟨rfl, -⟩ | htail⟩ := value_object_iff.mp h
    · cases hn
    · have := numbersWithin_members ih htail n hn
      simp only [List.length_append, List.length_cons]
      omega

/-- **Up to a thousand million bytes the contract holds**, whatever the library does about
    underflow. -/
theorem meetsContract_of_length (lib : NumericLibrary) (opts : ParserOptions) {src : Bytes}
    (h : src.length ≤ kExponentCap) : MeetsContract lib opts src := by
  rw [parse_meetsContract_iff]
  rintro x ⟨w, t, w', -, hx, -, rfl⟩ - -
  have hturn : ∀ n ∈ x.numbers, ¬ n.CapTurns := by
    intro n hn
    have := numbersWithin x t hx n hn
    simp only [List.length_append] at h
    exact NumberToken.not_capTurns_of_length (by omega)
  exact Or.inr ⟨fun ⟨n, hn, hm⟩ => absurd hm.2 (hturn n hn),
    fun ⟨n, hn, hm⟩ => absurd hm.2.1 (hturn n hn)⟩

/-! ## A text the parser takes for what it is not -/

namespace NumberToken

/-- The exponent part `e2000000000`. -/
def twoBillion : Exponent where
  mark := 0x65
  sign := none
  digits := [0x32, 0x30, 0x30, 0x30, 0x30, 0x30, 0x30, 0x30, 0x30, 0x30]
  mark_shape := Exponent.small_mark
  sign_shape := fun _ h => by cases h
  digits_shape := by decide +kernel

/-- `0.` and `n` zeros before a 1, with the exponent `e2000000000`. -/
def drifting (n : Nat) : NumberToken where
  negative := false
  int := [0x30]
  frac := some (List.replicate n 0x30 ++ [0x31])
  exp := some twoBillion
  int_digits := by decide +kernel
  int_shape := Or.inl rfl
  frac_shape := fun ds h => by
    cases h
    refine ⟨fun b hb => ?_, by simp⟩
    rcases List.mem_append.mp hb with hb | hb
    · rw [List.eq_of_mem_replicate hb]
      decide
    · rw [List.mem_singleton.mp hb]
      decide

theorem drifting_digits (n : Nat) :
    (drifting n).digits = List.replicate (n + 1) 0x30 ++ [0x31] := by
  rw [List.replicate_succ]
  rfl

theorem drifting_expValue (n : Nat) : (drifting n).expValue = 2000000000 := by
  show twoBillion.value = 2000000000
  decide +kernel

theorem drifting_mag (n : Nat) :
    (drifting n).mag = (10 : ℚ) ^ (2000000000 - ((n : Int) + 1)) := by
  have hlen : (((drifting n).frac.getD []).length : Int) = n + 1 := by simp [drifting]
  unfold mag
  rw [hlen, drifting_expValue, drifting_digits, Decimal.value_append,
    Decimal.value_replicate_zero]
  simp [Decimal.value, Decimal.digitVal]

theorem drifting_lead (n : Nat) : (drifting n).lead = some (n + 1) := by
  unfold lead
  rw [drifting_digits, List.findIdx?_append]
  simp [List.findIdx?_replicate]

/-- With a thousand million zeros or more, but not so many as to stay small, the token overflows
    and the source judges it an underflow. -/
theorem drifting_misaccepted {n : Nat} (h : kExponentCap ≤ n) (h' : n ≤ 1900000000) :
    (drifting n).Misaccepted := by
  constructor
  · refine Binary64.ofRat_overflow _ ?_
    rw [drifting_mag]
    calc (2 : ℚ) ^ (1024 : Int) ≤ 10 ^ (1024 : Int) :=
          zpow_le_zpow_left₀ (by norm_num) (by norm_num) (by norm_num)
      _ ≤ 10 ^ (2000000000 - ((n : Int) + 1)) := zpow_le_zpow_right₀ (by norm_num) (by omega)
  · refine ⟨n + 1, drifting_lead n, ?_⟩
    have hint : ((drifting n).int.length : Int) = 1 := rfl
    unfold cappedExp base
    rw [drifting_expValue, hint]
    unfold kExponentCap at *
    push_cast
    omega

end NumberToken

/-- A misaccepted token as a document is a text on which the contract fails. -/
theorem not_meetsContract_of_misaccepted {lib : NumericLibrary} {opts : ParserOptions}
    {t : NumberToken} (hbytes : opts.maxInputBytes = 0) (hnodes : 0 < opts.maxNodes)
    (h : t.Misaccepted) : ¬ MeetsContract lib opts t.text := by
  rw [parse_meetsContract_iff]
  intro hall
  have hws : Ws [] := by simp [Ws]
  have hharm := hall (.number t) ⟨[], t.text, [], hws, Value.number t, hws, by simp⟩
    ⟨Or.inl hbytes, Nat.zero_le _, Or.inr hnodes⟩ (fun _ => trivial)
  rcases hharm with ⟨s, hs, -, hna⟩ | hiff
  · rw [Json.numbers, List.mem_singleton] at hs
    exact hna (hs ▸ h)
  · obtain ⟨s, hs, hr⟩ := hiff.mp ⟨t, by simp [Json.numbers], h⟩
    rw [Json.numbers, List.mem_singleton] at hs
    subst hs
    exact NumberToken.not_overflows_of_reportsUnderflow hr.1 h.1

/-- With the byte limit lifted, `0.` with a thousand million zeros before `1e2000000000` is stored
    as the largest finite double. -/
theorem not_meetsContract_drifting :
    ¬ MeetsContract { underflowFails := fun _ _ => true } { maxInputBytes := 0 }
      (NumberToken.drifting 1000000000).text :=
  not_meetsContract_of_misaccepted rfl (by decide)
    (NumberToken.drifting_misaccepted (le_refl _) (by omega))

end ByteDance

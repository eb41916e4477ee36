/-
  The text of a value is a JSON text, and parses back to the value.

  `render_value` is the one induction: whatever `render` writes for a value is a spelling of a tree
  of the same depth and size that denotes the value, unsigned integers in the signed range excepted
  (`reparsed`).  Strings go by `escaped_stringBody`, doubles by `RyuText.exists_isToken`, and the
  white space of pretty printing falls between the tokens where the grammar allows it.
-/
import Pjson.Serialize.Render
import Pjson.Parser.Contract

namespace ByteDance

open Utf8

/-! ## Strings -/

namespace Serialize

theorem hexVal_hex : ∀ n : Fin 16, hexVal (hex n) = some n.val := by decide +kernel

/-- The escape of a code unit spells it. -/
theorem hexQuad_unicodeEscape {u : Nat} (h : u < 0x10000) :
    ∃ q, unicodeEscape u = 0x5C :: 0x75 :: q ∧ HexQuad q u := by
  have hmask : ∀ n : Nat, n &&& 0x0F = n % 16 := fun n => Nat.and_two_pow_sub_one_eq_mod n 4
  have hdigit : ∀ n : Nat, hexVal (hex (n &&& 0x0F)) = some (n % 16) := fun n => by
    rw [hmask]
    exact hexVal_hex ⟨n % 16, Nat.mod_lt _ (by norm_num)⟩
  refine ⟨_, rfl, _, _, _, _, _, _, _, _, rfl, hdigit _, hdigit _, hdigit _, hdigit _, ?_⟩
  simp only [Nat.shiftRight_eq_div_pow]
  omega

/-- The code point of a sequence is the scalar value it encodes. -/
theorem sequenceCodePoint_encode {cp : Nat} (h : IsScalar cp) (hlo : 0x80 ≤ cp) {ch : UInt8}
    {rest s : Bytes} (he : ch :: rest = encode cp ++ s) :
    sequenceCodePoint (encode cp).length ch rest = cp := by
  rcases encode_cases h with ⟨hlt, -⟩ | ⟨b, t, henc, hb, ht, -, hcp⟩ |
      ⟨b, t, u, henc, hb, ht, hu, -, hcp⟩ | ⟨b, t, u, w, henc, hb, ht, hu, hw, -, hcp⟩
  · omega
  all_goals
    rw [henc] at he ⊢
    obtain ⟨rfl, rfl⟩ := List.cons.inj he
  · show (ch &&& 0x1F).toNat <<< 6 ||| (t &&& 0x3F).toNat = cp
    rw [(lead_two ch).2 hb.1 hb.2, (continuation_mask t).2 ht.1 ht.2, shift_payload _ (by omega)]
    exact hcp.symm
  · show ((ch &&& 0x0F).toNat <<< 6 ||| (t &&& 0x3F).toNat) <<< 6 ||| (u &&& 0x3F).toNat = cp
    rw [(lead_three ch).2 hb.1 hb.2, (continuation_mask t).2 ht.1 ht.2,
      (continuation_mask u).2 hu.1 hu.2, shift_payload _ (by omega), shift_payload _ (by omega)]
    exact hcp.symm
  · show (((ch &&& 0x07).toNat <<< 6 ||| (t &&& 0x3F).toNat) <<< 6 ||| (u &&& 0x3F).toNat) <<< 6 |||
      (w &&& 0x3F).toNat = cp
    rw [(lead_four ch).2 hb.1 hb.2, (continuation_mask t).2 ht.1 ht.2,
      (continuation_mask u).2 hu.1 hu.2, (continuation_mask w).2 hw.1 hw.2,
      shift_payload _ (by omega), shift_payload _ (by omega), shift_payload _ (by omega)]
    exact hcp.symm

/-- Where the scanner finds a sequence behind a lead byte, the bytes start with an encoding. -/
theorem exists_encode {ch : UInt8} {rest : Bytes} (h80 : ¬ ch < 0x80)
    (h : utf8Len (ch :: rest) ≠ 0) : ∃ cp, IsScalar cp ∧ 0x80 ≤ cp ∧
      (encode cp).length = utf8Len (ch :: rest) ∧
      ch :: rest = encode cp ++ rest.drop (utf8Len (ch :: rest) - 1) := by
  obtain ⟨cp, t, hs, he, hlen⟩ := exists_of_utf8Len h
  have hlo : 0x80 ≤ cp := by
    by_contra hlt
    have henc : encode cp = [UInt8.ofNat cp] := by rw [encode, if_pos (by omega)]
    rw [henc] at he
    obtain ⟨rfl, -⟩ := List.cons.inj he
    apply h80
    rw [UInt8.lt_iff_toNat_lt, UInt8.toNat_ofNat']
    show cp % 256 < 128
    omega
  refine ⟨cp, hs, hlo, hlen.symm, ?_⟩
  have ht : t = (ch :: rest).drop (encode cp).length := by rw [he, List.drop_left]
  have hpos := (encode_length cp).1
  rw [hlen]
  obtain ⟨n, hn⟩ : ∃ n, (encode cp).length = n + 1 := Nat.exists_eq_succ_of_ne_zero (by omega)
  rw [hn, List.drop_succ_cons] at ht
  rw [hn, Nat.add_sub_cancel, ← ht]
  exact he

/-- The two-character escapes are escapes of the grammar. -/
theorem shortEscape_some {ch : UInt8} {escape : Bytes} (h : shortEscape ch = some escape) :
    StringChar escape [ch] := by
  have hall : ∀ ch : UInt8, ∀ escape ∈ shortEscape ch,
      escape.head? = some 0x5C ∧ escape.length = 2 ∧
        (escape.getLast?.bind simpleEscape) = some ch := by
    decide +kernel
  obtain ⟨hhead, hlen, he⟩ := hall ch escape h
  match escape, hlen with
  | [b, e], _ =>
    cases hhead
    exact StringChar.escape he

/-- Surrogates of a code point beyond the first plane. -/
theorem surrogates_eq {cp : Nat} (h : IsScalar cp) (hbig : ¬ cp ≤ 0xFFFF) :
    let hi := 0xD800 + ((cp - 0x10000) >>> 10)
    let lo := 0xDC00 + ((cp - 0x10000) &&& 0x3FF)
    (0xD800 ≤ hi ∧ hi ≤ 0xDBFF) ∧ (0xDC00 ≤ lo ∧ lo ≤ 0xDFFF) ∧ surrogatePair hi lo = cp := by
  have hmask : (cp - 0x10000) &&& 0x3FF = (cp - 0x10000) % 1024 :=
    Nat.and_two_pow_sub_one_eq_mod (cp - 0x10000) 10
  have hshift : (cp - 0x10000) >>> 10 = (cp - 0x10000) / 1024 := Nat.shiftRight_eq_div_pow _ 10
  have hmax : cp ≤ 0x10FFFF := by rcases h with h | h <;> omega
  intro hi lo
  have hhi : hi = 0xD800 + (cp - 0x10000) / 1024 := by rw [← hshift]
  have hlo : lo = 0xDC00 + (cp - 0x10000) % 1024 := by rw [← hmask]
  unfold surrogatePair
  omega

/-- **Escaping spells the string.** -/
theorem escaped_stringBody {bEscapeNonAscii : Bool} {s t : Bytes}
    (h : escaped bEscapeNonAscii s = some t) : StringBody t s := by
  fun_induction escaped bEscapeNonAscii s generalizing t with
  | case1 =>
    cases h
    exact StringBody.nil
  | case2 ch rest escape hesc ih =>
    obtain ⟨a, b, ha, hb, rfl⟩ := Option.cat_eq_some.mp h
    cases ha
    exact StringBody.cons (shortEscape_some hesc) (ih hb)
  | case3 ch rest hesc h20 ih =>
    obtain ⟨a, b, ha, hb, rfl⟩ := Option.cat_eq_some.mp h
    cases ha
    -- A control character: always as a \u escape of one quad.
    have hlt : ch.toNat < 0x20 := UInt8.lt_iff_toNat_lt.mp h20
    obtain ⟨q, hq, hquad⟩ := hexQuad_unicodeEscape (u := ch.toNat) (by omega)
    have hchar := StringChar.unicode hquad (Or.inl (by omega))
    rw [encode_one (by omega), ← hq] at hchar
    exact StringBody.cons hchar (ih hb)
  | case4 ch rest hesc h20 h80 ih =>
    obtain ⟨a, b, ha, hb, rfl⟩ := Option.cat_eq_some.mp h
    cases ha
    have hlt : ch.toNat < 0x80 := UInt8.lt_iff_toNat_lt.mp h80
    have hge : 0x20 ≤ ch.toNat := by
      have := mt UInt8.lt_iff_toNat_lt.mpr h20
      exact not_lt.mp this
    -- Plain ASCII: the short escapes have taken the quote and the backslash.
    have hne : ch ≠ 0x22 ∧ ch ≠ 0x5C := by
      constructor <;> rintro rfl <;> cases hesc
    have hchar := StringChar.raw (Or.inl (by omega)) hge
      (fun hc => hne.1 (UInt8.toNat_inj.mp hc)) (fun hc => hne.2 (UInt8.toNat_inj.mp hc))
    rw [encode_one hlt] at hchar
    exact StringBody.cons hchar (ih hb)
  | case5 => cases h
  | case6 ch rest hesc h20 h80 byteCount next h0 hascii =>
    -- A well-formed sequence that is copied as it stands.
    rename_i ih
    obtain ⟨a, b, ha, hb, rfl⟩ := Option.cat_eq_some.mp h
    cases ha
    obtain ⟨cp, hs, hlo, hlen, he⟩ := exists_encode h80 h0
    have htake : (ch :: rest).take byteCount = encode cp := by
      show (ch :: rest).take (utf8Len (ch :: rest)) = _
      rw [← hlen, he, List.take_left]
    rw [htake, he]
    exact StringBody.cons (StringChar.raw hs (by omega) (by omega) (by omega)) (ih hb)
  | case7 ch rest hesc h20 h80 byteCount next h0 hascii codePoint hbmp =>
    rename_i ih
    obtain ⟨a, b, ha, hb, rfl⟩ := Option.cat_eq_some.mp h
    cases ha
    obtain ⟨cp, hs, hlo, hlen, he⟩ := exists_encode h80 h0
    have hcp : codePoint = cp := by
      show sequenceCodePoint (utf8Len (ch :: rest)) ch rest = cp
      rw [← hlen]
      exact sequenceCodePoint_encode hs hlo he
    rw [hcp] at hbmp
    obtain ⟨q, hq, hquad⟩ := hexQuad_unicodeEscape (u := cp) (by omega)
    rw [hcp, hq, he]
    exact StringBody.cons (StringChar.unicode hquad hs) (ih hb)
  | case8 ch rest hesc h20 h80 byteCount next h0 hascii codePoint hbmp =>
    rename_i ih
    obtain ⟨a, b', ha, hcat, rfl⟩ := Option.cat_eq_some.mp h
    obtain ⟨a', b, ha', hb, rfl⟩ := Option.cat_eq_some.mp hcat
    cases ha
    cases ha'
    obtain ⟨cp, hs, hlo, hlen, he⟩ := exists_encode h80 h0
    have hcp : codePoint = cp := by
      show sequenceCodePoint (utf8Len (ch :: rest)) ch rest = cp
      rw [← hlen]
      exact sequenceCodePoint_encode hs hlo he
    rw [hcp] at hbmp ⊢
    -- Beyond the basic plane: two quads, which the reader joins again.
    obtain ⟨hhi, hlo', hpair⟩ := surrogates_eq hs hbmp
    obtain ⟨q, hq, hquad⟩ := hexQuad_unicodeEscape (u := 0xD800 + ((cp - 0x10000) >>> 10)) (by omega)
    obtain ⟨r, hr, hquad'⟩ := hexQuad_unicodeEscape (u := 0xDC00 + ((cp - 0x10000) &&& 0x3FF))
      (by omega)
    have hchar := StringChar.surrogates hquad hquad' hhi.1 hhi.2 hlo'.1 hlo'.2
    rw [hpair] at hchar
    have hbody := StringBody.cons hchar (ih hb)
    rw [hq, hr, he]
    simpa using hbody

end Serialize

/-! ## Numbers -/

namespace NumberToken

/-- A small exponent is not capped, and so its token not misjudged. -/
theorem convert_of_small {lib : NumericLibrary} {policy : NumberPolicy} {t : NumberToken}
    (h : t.expValue.natAbs < 1000) : t.convert lib policy = t.denote policy := by
  have hturn : ¬ t.CapTurns := by
    rintro ⟨k, -, hne⟩
    apply hne
    have hcap : t.cappedExp = t.expValue := by
      unfold cappedExp kExponentCap
      omega
    rw [hcap]
  exact convert_eq_denote (fun ha => hturn ha.2) fun hr => hturn hr.2.1

theorem ofInt_text (n : Int) : (ofInt n).text = Serialize.toDecimal n := by
  unfold Serialize.toDecimal text ofInt
  by_cases h : n < 0
  · simp [h, signText, fracText, expText]
  · have : n.natAbs = n.toNat := by omega
    simp [h, signText, fracText, expText, this]

/-- The token of an integer is converted to the kind that holds it. -/
theorem ofInt_convert (lib : NumericLibrary) (policy : NumberPolicy) {n : Int} {p : ParsedNumber}
    (h : exactInteger n = some p) : (ofInt n).convert lib policy = some p := by
  have hval : (ofInt n).intValue = n := by
    show (if decide (n < 0) = true then -(Decimal.value (Decimal.numeral n.natAbs) : Int)
      else Decimal.value (Decimal.numeral n.natAbs)) = n
    simp only [Decimal.value_numeral, decide_eq_true_eq]
    split_ifs <;> omega
  rw [convert_of_small (by show (0 : Int).natAbs < 1000; decide), NumberToken.denote,
    if_neg (by simp [isFloat, ofInt]), hval, h]

end NumberToken

/-- What the traversal relies on about `d2s` at a double: its text has the form Ryu prints and is
    read back as the same double; a zero is printed as one. -/
def Restores (d2s : Binary64 → Bytes) (d : Binary64) : Prop :=
  ∃ r : RyuText, d2s d = r.text ∧ Binary64.ofRat r.negative r.mag = d ∧
    (d.isZero = true → r.mag = 0)

/-- The text of a finite double is converted to the same double, under either policy. -/
theorem exists_double_token {d2s : Binary64 → Bytes} {d : Binary64} (hf : d.isFinite = true)
    (h : Restores d2s d) (lib : NumericLibrary) (policy : NumberPolicy) :
    ∃ t : NumberToken, formatDouble d2s d = t.text ∧
      t.convert lib policy = some (.FloatingPoint d) := by
  obtain ⟨r, hr, hround, hzero⟩ := h
  obtain ⟨t, ht⟩ := r.exists_isToken
  refine ⟨t, ?_, ?_⟩
  · rw [formatDouble, if_neg (by rw [hf]; simp), hr, ht.text]
  · rw [NumberToken.convert_of_small ht.small, NumberToken.denote, if_pos ht.isFloat, ht.negative,
      ht.mag]
    unfold nearestDouble
    simp only [hround, hf]
    rw [if_neg (by simp), if_neg (fun hz => hz.2.1 (hzero hz.1))]

/-! ## Values -/

namespace Pjson

mutual
/-- The value after a round trip: an unsigned integer in the signed range has become signed. -/
def reparsed : Pjson → Pjson
  | .jsonNumberUInt n =>
    if n.toNat < 2 ^ 63 then .jsonNumberInt (Int64.ofInt n.toNat) else .jsonNumberUInt n
  | .jsonArray xs => .jsonArray (reparsedElements xs)
  | .jsonObject ms => .jsonObject (reparsedMembers ms)
  | v => v
def reparsedElements : List Pjson → List Pjson
  | [] => []
  | x :: xs => reparsed x :: reparsedElements xs
def reparsedMembers : List (Bytes × Pjson) → List (Bytes × Pjson)
  | [] => []
  | (k, x) :: ms => (k, reparsed x) :: reparsedMembers ms
end

end Pjson

namespace Serialize

section Values

variable {admits : Nat → Bool} {d2s : Binary64 → Bytes} {opts : SerializeOptions} {lib : NumericLibrary}
  {policy : NumberPolicy} {dup : DuplicateKeyPolicy}

/-- The tree `x` has the size of the value and denotes what it is reparsed to. -/
structure Reparses (lib : NumericLibrary) (policy : NumberPolicy) (dup : DuplicateKeyPolicy)
    (x : Json) (v : Pjson) : Prop where
  depth : x.depth = v.depth
  nodes : x.nodes = v.nodes
  denotes : x.denote (NumberToken.convert lib policy) dup = some v.reparsed

/-- The text of the value is a spelling of a tree that reparses to it. -/
def Spelled (admits : Nat → Bool) (d2s : Binary64 → Bytes) (opts : SerializeOptions) (lib : NumericLibrary)
    (policy : NumberPolicy) (dup : DuplicateKeyPolicy) (v : Pjson) : Prop :=
  ∀ depth text, render admits d2s opts depth v = some text →
    ∃ x, Value x text ∧ Reparses lib policy dup x v

theorem newLine_ws {depth : Nat} {t : Bytes} (h : newLine admits opts depth = some t) : Ws t := by
  unfold newLine indentation at h
  split_ifs at h
  · cases h
    intro b hb
    rcases List.mem_cons.mp hb with rfl | hb
    · exact Or.inr (Or.inr (Or.inl rfl))
    · exact Or.inr (Or.inl (List.eq_of_mem_replicate hb))
  · cases h
    intro b hb
    rcases List.mem_cons.mp hb with rfl | hb
    · exact Or.inr (Or.inr (Or.inl rfl))
    · exact Or.inl (List.eq_of_mem_replicate hb)
  · cases h
  · cases h
    exact fun _ hb => by cases hb

/-- The elements behind the first are the elements from the first, behind a comma. -/
theorem renderElements_false {depth : Nat} {x : Pjson} {xs : List Pjson} :
    renderElements admits d2s opts depth false (x :: xs) =
      Option.cat (some [0x2C]) (renderElements admits d2s opts depth true (x :: xs)) := by
  simp [renderElements, comma]

theorem renderMembers_false {depth : Nat} {m : Bytes × Pjson} {ms : List (Bytes × Pjson)} :
    renderMembers admits d2s opts depth false (m :: ms) =
      Option.cat (some [0x2C]) (renderMembers admits d2s opts depth true (m :: ms)) := by
  obtain ⟨k, x⟩ := m
  simp [renderMembers, comma]

/-- The elements of an array with white space behind them. -/
theorem render_elements {xs : List Pjson} (hne : xs ≠ [])
    (hxs : ∀ x ∈ xs, Spelled admits d2s opts lib policy dup x) {depth : Nat} {t w : Bytes} (hw : Ws w)
    (h : renderElements admits d2s opts depth true xs = some t) :
    ∃ ys, Elements ys (t ++ w) ∧ Json.depthElements ys = Pjson.depthElements xs ∧
      Json.nodesElements ys = Pjson.nodesElements xs ∧
      Json.denoteElements (NumberToken.convert lib policy) dup ys =
        some (Pjson.reparsedElements xs) := by
  induction xs generalizing t with
  | nil => exact absurd rfl hne
  | cons x xs ih =>
    simp only [renderElements, comma, if_true, Option.cat_nil_left, Option.cat_eq_some] at h
    obtain ⟨nl, _, hnl, ⟨tx, tr, htx, htr, rfl⟩, rfl⟩ := h
    have hnlws := newLine_ws hnl
    obtain ⟨y, hy, hrep⟩ := hxs x (List.mem_cons_self ..) _ _ htx
    cases xs with
    | nil =>
      cases htr
      refine ⟨[y], ?_, by simp [Json.depthElements, Pjson.depthElements, hrep.depth],
        by simp [Json.nodesElements, Pjson.nodesElements, hrep.nodes], ?_⟩
      · simpa using Elements.one hnlws hy hw
      · exact Json.denoteElements_cons hrep.denotes rfl
    | cons x' xs =>
      rw [renderElements_false, Option.cat_eq_some] at htr
      obtain ⟨_, tr, hc, htr, rfl⟩ := htr
      cases hc
      obtain ⟨ys, hys, hdepth, hnodes, hden⟩ := ih (by simp)
        (fun z hz => hxs z (List.mem_cons_of_mem _ hz)) htr
      refine ⟨y :: ys, ?_, by rw [Json.depthElements, Pjson.depthElements, hrep.depth, hdepth],
        by rw [Json.nodesElements, Pjson.nodesElements, hrep.nodes, hnodes],
        Json.denoteElements_cons hrep.denotes hden⟩
      have hcons := Elements.cons hnlws hy (show Ws [] by simp [Ws]) hys
      simpa using hcons

/-- The key of a member, with its colon and the blank of pretty printing. -/
theorem renderKey_some {key kt : Bytes} (h : renderKey opts (some key) = some kt) :
    ∃ t w, StringBody t key ∧ Ws w ∧ kt = 0x22 :: (t ++ 0x22 :: 0x3A :: w) := by
  simp only [renderKey, Option.cat_eq_some] at h
  obtain ⟨_, _, hq, ⟨t, c, ht, hc, rfl⟩, rfl⟩ := h
  cases hq
  cases hc
  refine ⟨t, if opts.pretty then [0x20] else [], escaped_stringBody ht, ?_, ?_⟩
  · split_ifs <;> simp [Ws]
  · split_ifs <;> simp

/-- The members of an object with white space behind them, added to members with other names. -/
theorem render_members {ms : List (Bytes × Pjson)} (hne : ms ≠ [])
    (hms : ∀ m ∈ ms, Spelled admits d2s opts lib policy dup m.2) (hkeys : Assoc.UniqueKeys ms)
    (members : List (Bytes × Pjson)) (hnew : ∀ k ∈ Assoc.keys ms, k ∉ Assoc.keys members)
    {depth : Nat} {t w : Bytes} (hw : Ws w)
    (h : renderMembers admits d2s opts depth true ms = some t) :
    ∃ ns, Members ns (t ++ w) ∧ Json.depthMembers ns = Pjson.depthMembers ms ∧
      Json.nodesMembers ns = Pjson.nodesMembers ms ∧
      Json.denoteMembers (NumberToken.convert lib policy) dup members ns =
        some (members ++ Pjson.reparsedMembers ms) := by
  induction ms generalizing t members with
  | nil => exact absurd rfl hne
  | cons m ms ih =>
    obtain ⟨key, x⟩ := m
    simp only [renderMembers, comma, if_true, Option.cat_nil_left, Option.cat_eq_some] at h
    obtain ⟨nl, _, hnl, ⟨kt, _, hkt, ⟨tx, tr, htx, htr, rfl⟩, rfl⟩, rfl⟩ := h
    have hnlws := newLine_ws hnl
    obtain ⟨ktext, w₂, hkbody, hw₂, rfl⟩ := renderKey_some hkt
    obtain ⟨y, hy, hrep⟩ := hms (key, x) (List.mem_cons_self ..) _ _ htx
    -- the name is new, so the member is added at the end under every policy
    have hadd : Json.addMember dup key x.reparsed members = some (members ++ [(key, x.reparsed)]) :=
      if_neg (hnew key (List.mem_cons_self ..))
    obtain ⟨hkey, hkeys⟩ := Assoc.uniqueKeys_cons.mp hkeys
    cases ms with
    | nil =>
      cases htr
      refine ⟨[(key, y)], ?_, by simp [Json.depthMembers, Pjson.depthMembers, hrep.depth],
        by simp [Json.nodesMembers, Pjson.nodesMembers, hrep.nodes], ?_⟩
      · simpa using Members.one hnlws hkbody (show Ws [] by simp [Ws]) hw₂ hy hw
      · exact Json.denoteMembers_cons_iff.mpr ⟨_, _, hrep.denotes, hadd, rfl⟩
    | cons m' ms =>
      rw [renderMembers_false, Option.cat_eq_some] at htr
      obtain ⟨_, tr, hc, htr, rfl⟩ := htr
      cases hc
      obtain ⟨ns, hns, hdepth, hnodes, hden⟩ := ih (by simp)
        (fun z hz => hms z (List.mem_cons_of_mem _ hz)) hkeys (members ++ [(key, x.reparsed)]) (by
          intro k hk hmem
          rw [Assoc.keys, List.map_append, List.mem_append] at hmem
          rcases hmem with hmem | hmem
          · exact hnew k (List.mem_cons_of_mem _ hk) hmem
          · rw [List.map_singleton, List.mem_singleton] at hmem
            exact hkey (hmem ▸ hk)) htr
      refine ⟨(key, y) :: ns, ?_,
        by rw [Json.depthMembers, Pjson.depthMembers, hrep.depth, hdepth],
        by rw [Json.nodesMembers, Pjson.nodesMembers, hrep.nodes, hnodes], ?_⟩
      · have hcons := Members.cons hnlws hkbody (show Ws [] by simp [Ws]) hw₂ hy
          (show Ws [] by simp [Ws]) hns
        simpa using hcons
      · refine Json.denoteMembers_cons_iff.mpr ⟨_, _, hrep.denotes, hadd, ?_⟩
        rw [hden, List.append_assoc]
        rfl

/-- **The text of a value is a spelling of it**, by induction on the value. -/
theorem render_value (lib : NumericLibrary) (policy : NumberPolicy) (dup : DuplicateKeyPolicy)
    (v : Pjson) (hwf : v.WF) (hfinite : ∀ d ∈ v.doubles, d.isFinite = true)
    (hd2s : ∀ d ∈ v.doubles, Restores d2s d) : Spelled admits d2s opts lib policy dup v := by
  have hws : Ws [] := by simp [Ws]
  induction v using Pjson.induct with
  | jsonNull =>
    rintro depth text ⟨⟩
    exact ⟨.null, Value.null, rfl, rfl, rfl⟩
  | jsonBoolean b =>
    intro depth text h
    cases b with
    | true =>
      cases h
      exact ⟨.bool true, Value.true, rfl, rfl, rfl⟩
    | false =>
      cases h
      exact ⟨.bool false, Value.false, rfl, rfl, rfl⟩
  | jsonString s =>
    intro depth text h
    rw [render, quoted, Option.cat_eq_some] at h
    obtain ⟨_, _, hq, h, rfl⟩ := h
    obtain ⟨t, _, ht, hq', rfl⟩ := Option.cat_eq_some.mp h
    cases hq
    cases hq'
    exact ⟨.string s, Value.string (escaped_stringBody ht), rfl, rfl, rfl⟩
  | jsonNumberInt n =>
    intro depth text h
    cases h
    have hlo := n.le_toInt
    have hhi := n.toInt_lt
    have hconv := NumberToken.ofInt_convert lib policy
      (exactInteger_signed (z := n.toInt) (by omega) (by omega))
    rw [Int64.ofInt_toInt] at hconv
    refine ⟨.number (.ofInt n.toInt), ?_, rfl, rfl, ?_⟩
    · rw [← NumberToken.ofInt_text]
      exact Value.number _
    · rw [Json.denote, hconv]
      rfl
  -- Below 2^63 the reader picks the signed kind: this is what `reparsed` records.
  | jsonNumberUInt n =>
    intro depth text h
    cases h
    have hhi := n.toNat_lt
    refine ⟨.number (.ofInt n.toNat), ?_, rfl, rfl, ?_⟩
    · rw [← NumberToken.ofInt_text]
      exact Value.number _
    · by_cases hsmall : n.toNat < 2 ^ 63
      · rw [Json.denote, NumberToken.ofInt_convert lib policy
          (exactInteger_signed (z := n.toNat) (by omega) (by omega)), Pjson.reparsed, if_pos hsmall]
        rfl
      · rw [Json.denote, NumberToken.ofInt_convert lib policy
          (exactInteger_unsigned (z := n.toNat) (by omega) (by omega)), Pjson.reparsed,
          if_neg hsmall, Int.toNat_natCast, UInt64.ofNat_toNat]
        rfl
  | jsonNumberDouble d =>
    intro depth text h
    -- Finite by assumption, so the policy for the numbers that are not never comes in.
    have hf := hfinite d (by simp [Pjson.doubles])
    rw [render, renderDouble, if_neg (by rw [hf]; simp)] at h
    cases h
    obtain ⟨t, ht, hconv⟩ := exists_double_token hf (hd2s d (by simp [Pjson.doubles])) lib policy
    refine ⟨.number t, ?_, rfl, rfl, ?_⟩
    · rw [ht]
      exact Value.number t
    · rw [Json.denote, hconv]
      rfl
  | jsonArray xs ih =>
    intro depth text h
    rw [Pjson.wf_array] at hwf
    cases xs with
    | nil =>
      cases h
      exact ⟨.array [], Value.emptyArray hws, rfl, rfl, rfl⟩
    | cons x xs =>
      simp only [Pjson.doubles, Pjson.mem_doublesElements_iff] at hfinite hd2s
      simp only [render, Option.cat_eq_some] at h
      obtain ⟨_, _, hb, ⟨t, _, ht, ⟨nl, _, hnl, hb', rfl⟩, rfl⟩, rfl⟩ := h
      cases hb
      cases hb'
      -- `Spelled` speaks of every depth, so the hypothesis serves one level down.
      obtain ⟨ys, hys, hdepth, hnodes, hden⟩ := render_elements (by simp)
        (fun y hy => ih y hy (hwf y hy) (fun d hd => hfinite d ⟨y, hy, hd⟩)
          fun d hd => hd2s d ⟨y, hy, hd⟩) (newLine_ws hnl) ht
      refine ⟨.array ys, ?_, by rw [Json.depth, Pjson.depth, hdepth],
        by rw [Json.nodes, Pjson.nodes, hnodes], by rw [Json.denote, hden]; rfl⟩
      simpa using Value.array hys
  | jsonObject ms ih =>
    intro depth text h
    rw [Pjson.wf_object] at hwf
    cases ms with
    | nil =>
      cases h
      exact ⟨.object [], Value.emptyObject hws, rfl, rfl, rfl⟩
    | cons m ms =>
      simp only [Pjson.doubles, Pjson.mem_doublesMembers_iff] at hfinite hd2s
      simp only [render, Option.cat_eq_some] at h
      obtain ⟨_, _, hb, ⟨t, _, ht, ⟨nl, _, hnl, hb', rfl⟩, rfl⟩, rfl⟩ := h
      cases hb
      cases hb'
      obtain ⟨ns, hns, hdepth, hnodes, hden⟩ := render_members (by simp)
        (fun n hn => ih n hn (hwf.2 n hn) (fun d hd => hfinite d ⟨n, hn, hd⟩)
          fun d hd => hd2s d ⟨n, hn, hd⟩) hwf.1 [] (by simp) (newLine_ws hnl) ht
      refine ⟨.object ns, ?_, by rw [Json.depth, Pjson.depth, hdepth],
        by rw [Json.nodes, Pjson.nodes, hnodes], by rw [Json.denote, hden]; rfl⟩
      simpa using Value.object hns

end Values

end Serialize

/-- **Round trip.**  Whatever `toString` makes of a value with finite doubles, under any options,
    parses back to it under any options whose limits admit it; only an unsigned integer in the signed
    range comes back as a signed one. -/
theorem parse_toString (lib : NumericLibrary) (d2s : Binary64 → Bytes) (sopts : SerializeOptions)
    (popts : ParserOptions) (v : Pjson) (text : Bytes) (hwf : v.WF)
    (hfinite : ∀ d ∈ v.doubles, d.isFinite = true) (hd2s : ∀ d ∈ v.doubles, Restores d2s d)
    (htext : Serialize.toString d2s sopts v = .ok text)
    (hbytes : popts.maxInputBytes = 0 ∨ text.length ≤ popts.maxInputBytes)
    (hdepth : v.depth ≤ clampParseDepth popts.maxDepth)
    (hnodes : popts.maxNodes = 0 ∨ v.nodes ≤ popts.maxNodes) :
    (parse lib popts text).2.ok = true ∧ (parse lib popts text).1 = v.reparsed := by
  obtain ⟨x, hx, hrep⟩ := Serialize.render_value lib popts.numberPolicy
    popts.duplicateKeys v hwf hfinite hd2s 0 text (Serialize.toString_ok_iff.mp htext).1
  have hws : Ws [] := by simp [Ws]
  rw [clampParseDepth_eq] at hdepth
  exact (parse_ok_iff lib popts text v.reparsed).mpr
    ⟨x, ⟨[], text, [], hws, hx, hws, by simp⟩,
      ⟨hbytes, by rw [hrep.depth]; exact hdepth, by rw [hrep.nodes]; exact hnodes⟩, hrep.denotes⟩

/-- What Ryu prints for one half. -/
def ryuHalf : RyuText where
  negative := false
  lead := 0x35
  frac := []
  negativeExponent := true
  exponent := 1
  lead_digit := by decide
  frac_digits := Decimal.allDigits_nil
  lead_shape := Or.inl (by decide)
  exponent_small := by decide

/-- The text `[0.5,7]`, of an unsigned seven. -/
theorem parse_toString_half :
    (parse { underflowFails := fun _ _ => true } {}
        [0x5B, 0x30, 0x2E, 0x35, 0x2C, 0x37, 0x5D]).2.ok = true ∧
      (parse { underflowFails := fun _ _ => true } {}
        [0x5B, 0x30, 0x2E, 0x35, 0x2C, 0x37, 0x5D]).1 =
        .jsonArray [.jsonNumberDouble ⟨0x3FE0000000000000⟩, .jsonNumberInt 7] :=
  parse_toString _ (fun _ => ryuHalf.text) {} {}
    (.jsonArray [.jsonNumberDouble ⟨0x3FE0000000000000⟩, .jsonNumberUInt 7]) _
    (by simp [Pjson.WF, Pjson.WFElements])
    (by
      intro d hd
      simp only [Pjson.doubles, Pjson.doublesElements, List.append_nil, List.mem_singleton] at hd
      rw [hd]
      decide +kernel)
    (by
      intro d hd
      simp only [Pjson.doubles, Pjson.doublesElements, List.append_nil, List.mem_singleton] at hd
      rw [hd]
      exact ⟨ryuHalf, rfl, by decide +kernel, by decide +kernel⟩)
    (Serialize.toString_ok_iff.mpr ⟨by decide +kernel, by decide, by decide⟩)
    (by decide) (by decide) (by decide)

end ByteDance

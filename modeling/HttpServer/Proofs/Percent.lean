import HttpServer.Path.Encoding
import HttpServer.Path.InPlace
import Mathlib.Data.List.Infix
/-!
# Decoding undoes every encoding

A source starts with one token at most (`Token.eq_of_append_eq`), so it encodes one string at most, and
decoding gives this string or refuses the source (`percentDecode_undoes_encoding`). Each token is decoded
for itself: what it yields is not looked at again.

Every token takes at least one byte of the source, so the decoder never writes more than it has read
(`Decoding.size_le`), and the bound on what it writes is never met.
-/
namespace HttpServer.Path

variable {s x text token token' rest rest' : Bytes} {b b' c v : UInt8} {i j room : Nat}
  {out : Array UInt8} {e : Rejection}

/-! ## Digits -/

/-- A byte between two others is the lower of them and a small value. -/
theorem sub_lt_of_between {lo hi n : UInt8} (between : lo ≤ b ∧ b ≤ hi)
    (range : hi.toNat < lo.toNat + n.toNat) : b - lo < n := by
  rw [UInt8.le_iff_toNat_le, UInt8.le_iff_toNat_le] at between
  rw [UInt8.lt_iff_toNat_lt, UInt8.toNat_sub_of_le _ _ (UInt8.le_iff_toNat_le.2 between.1)]
  omega

/-- The lower of two bytes and a small value lie between them. -/
theorem between_of_lt {lo hi n : UInt8} (small : v < n) (range : lo.toNat + n.toNat = hi.toNat + 1) :
    lo ≤ lo + v ∧ lo + v ≤ hi := by
  have bound := hi.toNat_lt
  rw [UInt8.lt_iff_toNat_lt] at small
  rw [UInt8.le_iff_toNat_le, UInt8.le_iff_toNat_le, UInt8.toNat_add, Nat.mod_eq_of_lt (by omega)]
  omega

/-- The digits that are read are those that can be written. -/
theorem hexValue?_eq_some_iff : hexValue? b = some v ↔ HexDigit b v := by
  constructor
  · intro read
    unfold hexValue? at read
    split at read
    · rename_i between
      cases read
      have digit := HexDigit.decimal (b - 0x30) (sub_lt_of_between between (by decide))
      rwa [UInt8.add_comm, UInt8.sub_add_cancel] at digit
    · split at read
      · rename_i between
        cases read
        have digit := HexDigit.lower (b - 0x61) (sub_lt_of_between between (by decide))
        rwa [UInt8.add_comm, UInt8.sub_add_cancel, UInt8.add_comm 10] at digit
      · split at read
        · rename_i between
          cases read
          have digit := HexDigit.upper (b - 0x41) (sub_lt_of_between between (by decide))
          rwa [UInt8.add_comm, UInt8.sub_add_cancel, UInt8.add_comm 10] at digit
        · cases read
  · intro digit
    unfold hexValue?
    cases digit with
    | decimal v small =>
      rw [if_pos (between_of_lt small (by decide)), UInt8.add_comm, UInt8.add_sub_cancel]
    | lower v small =>
      have here : 0x61 ≤ 0x61 + v ∧ 0x61 + v ≤ 0x66 := between_of_lt small (by decide)
      have not_decimal : ¬ (0x30 ≤ 0x61 + v ∧ 0x61 + v ≤ 0x39) := fun h =>
        absurd (UInt8.le_trans here.1 h.2) (by decide)
      rw [if_neg not_decimal, if_pos here, UInt8.add_comm 0x61, UInt8.add_sub_cancel,
        UInt8.add_comm v]
    | upper v small =>
      have here : 0x41 ≤ 0x41 + v ∧ 0x41 + v ≤ 0x46 := between_of_lt small (by decide)
      have not_decimal : ¬ (0x30 ≤ 0x41 + v ∧ 0x41 + v ≤ 0x39) := fun h =>
        absurd (UInt8.le_trans here.1 h.2) (by decide)
      have not_lower : ¬ (0x61 ≤ 0x41 + v ∧ 0x41 + v ≤ 0x66) := fun h =>
        absurd (UInt8.le_trans h.1 here.2) (by decide)
      rw [if_neg not_decimal, if_neg not_lower, if_pos here, UInt8.add_comm 0x41,
        UInt8.add_sub_cancel, UInt8.add_comm v]

theorem HexDigit.lt (h : HexDigit b v) : v < 16 := by
  cases h with
  | decimal v small => exact UInt8.lt_trans small (by decide)
  | lower v small | upper v small =>
    rw [UInt8.lt_iff_toNat_lt] at small ⊢
    rw [UInt8.toNat_add]
    simp only [UInt8.reduceToNat] at small ⊢
    omega

/-- Half a byte beside another is a sum. -/
theorem shiftLeft_or_eq (high : UInt8) {low : UInt8} (small : low < 16) :
    high <<< 4 ||| low = 16 * high + low := by
  have lowBound : low.toNat < 2 ^ 4 := UInt8.lt_iff_toNat_lt.1 small
  have highPart : high.toNat <<< 4 % 2 ^ 8 = 2 ^ 4 * (high.toNat % 16) := by
    rw [Nat.shiftLeft_eq]
    omega
  apply UInt8.toNat_inj.1
  rw [UInt8.toNat_or, UInt8.toNat_shiftLeft, UInt8.toNat_add, UInt8.toNat_mul]
  simp only [UInt8.reduceToNat, Nat.reduceMod, highPart]
  rw [← Nat.two_pow_add_eq_or_of_lt lowBound]
  omega

/-- Two digits are read as the byte that they write behind a percent sign. -/
theorem hexPair?_eq_some_iff {hi lo : UInt8} :
    hexPair? hi lo = some c ↔ Token [percent, hi, lo] c := by
  constructor
  · intro read
    unfold hexPair? at read
    split at read
    · rename_i h l high low
      cases read
      have low := hexValue?_eq_some_iff.1 low
      rw [shiftLeft_or_eq h low.lt]
      exact .escaped (hexValue?_eq_some_iff.1 high) low
    · cases read
  · intro token
    cases token with
    | escaped high low =>
      rw [hexPair?, hexValue?_eq_some_iff.2 high, hexValue?_eq_some_iff.2 low]
      exact congrArg some (shiftLeft_or_eq _ low.lt)

/-! ## Tokens -/

theorem Token.length_pos (h : Token token b) : 0 < token.length := by
  cases h <;> exact Nat.succ_pos _

theorem Token.append_ne_nil (h : Token token b) (rest : Bytes) : token ++ rest ≠ [] := by
  cases h <;> exact List.cons_ne_nil _ _

/-- The first token of a source, its byte and what is behind it are told by the source. -/
theorem Token.eq_of_append_eq (h : Token token b) (h' : Token token' b')
    (same : token ++ rest = token' ++ rest') : b = b' ∧ rest = rest' := by
  cases h with
  | plain b ne =>
    cases h' with
    | plain b' ne' =>
      cases same
      exact ⟨rfl, rfl⟩
    | escaped high low =>
      cases same
      exact absurd rfl ne
  | escaped high low =>
    cases h' with
    | plain b' ne' =>
      cases same
      exact absurd rfl ne'
    | escaped high' low' =>
      cases same
      have pair := hexPair?_eq_some_iff.2 (Token.escaped high low)
      rw [hexPair?_eq_some_iff.2 (Token.escaped high' low')] at pair
      exact ⟨(Option.some.inj pair).symm, rfl⟩

/-- What a source encodes begins with the byte of its first token. -/
theorem encodes_append_iff (h : Token token b) :
    Encodes (token ++ rest) x ↔ ∃ y, x = b :: y ∧ Encodes rest y := by
  constructor
  · intro encodes
    generalize source : token ++ rest = s at encodes
    cases encodes with
    | nil => exact absurd source (h.append_ne_nil rest)
    | cons h' encodes =>
      obtain ⟨rfl, rfl⟩ := h.eq_of_append_eq h' source
      exact ⟨_, rfl, encodes⟩
  · rintro ⟨y, rfl, encodes⟩
    exact .cons h encodes

theorem encodes_nil_iff : Encodes [] x ↔ x = [] := by
  constructor
  · intro encodes
    generalize source : ([] : Bytes) = s at encodes
    cases encodes with
    | nil => rfl
    | cons h encodes => exact absurd source.symm (h.append_ne_nil _)
  · rintro rfl
    exact .nil

/-- A percent sign in an encoding has two hexadecimal digits behind it. -/
theorem exists_of_encodes_percent (encodes : Encodes (percent :: s) x) :
    ∃ hi lo rest c, s = hi :: lo :: rest ∧ hexPair? hi lo = some c := by
  generalize source : percent :: s = t at encodes
  cases encodes with
  | nil => cases source
  | cons h encodes =>
    cases h with
    | plain b ne =>
      cases source
      exact absurd rfl ne
    | escaped high low =>
      cases source
      exact ⟨_, _, _, _, rfl, hexPair?_eq_some_iff.2 (.escaped high low)⟩

/-- A source is no shorter than what it encodes. -/
theorem Encodes.length_le (h : Encodes s x) : x.length ≤ s.length := by
  induction h with
  | nil => exact Nat.le_refl _
  | cons token encodes ih =>
    have := token.length_pos
    rw [List.length_cons, List.length_append]
    omega

/-! ## Decoding -/

/-- With one more token, its byte moves from what is still to be written into the buffer. -/
theorem encodes_push_iff (h : Token token b) (out : Array UInt8) :
    (∃ y, x = (out.push b).toList ++ y ∧ Encodes rest y) ↔
      ∃ y, x = out.toList ++ y ∧ Encodes (token ++ rest) y := by
  simp only [encodes_append_iff h, Array.toList_push, List.append_assoc, List.singleton_append]
  constructor
  · rintro ⟨y, rfl, encodes⟩
    exact ⟨b :: y, rfl, y, rfl, encodes⟩
  · rintro ⟨_, rfl, y, rfl, encodes⟩
    exact ⟨y, rfl, encodes⟩

/-- With enough room, what is written behind the buffer is what the source encodes. -/
theorem decodeOnto_eq_ok_iff (fits : out.size + s.length ≤ room) :
    decodeOnto room s out = .ok x ↔ ∃ y, x = out.toList ++ y ∧ Encodes s y := by
  fun_induction decodeOnto room s out with
  | case1 out =>
    simp only [encodes_nil_iff]
    constructor
    · rintro ⟨⟩
      exact ⟨[], (List.append_nil _).symm, rfl⟩
    · rintro ⟨_, rfl, rfl⟩
      rw [List.append_nil]
  | case2 out hi lo rest c pair space ih =>
    simp only [List.length_cons, Array.size_push] at fits ih
    exact (ih (by omega)).trans (encodes_push_iff (hexPair?_eq_some_iff.1 pair) out)
  | case3 out hi lo rest c pair full =>
    rw [List.length_cons] at fits
    omega
  | case4 out hi lo rest pair =>
    refine iff_of_false nofun ?_
    rintro ⟨y, -, encodes⟩
    obtain ⟨hi', lo', rest', c, same, pair'⟩ := exists_of_encodes_percent encodes
    cases same
    rw [pair] at pair'
    cases pair'
  | case5 s out short =>
    refine iff_of_false nofun ?_
    rintro ⟨y, -, encodes⟩
    obtain ⟨hi, lo, rest, c, same, -⟩ := exists_of_encodes_percent encodes
    exact short hi lo rest same
  | case6 b s out plain space ih =>
    simp only [List.length_cons, Array.size_push] at fits ih
    exact (ih (by omega)).trans (encodes_push_iff (.plain b plain) out)
  | case7 b s out plain full =>
    rw [List.length_cons] at fits
    omega

theorem percentDecode_eq_ok_iff : percentDecode s = .ok x ↔ Encodes s x := by
  have empty : (#[] : Array UInt8).size + s.length ≤ s.length := by
    rw [List.size_toArray, List.length_nil, Nat.zero_add]
  rw [percentDecode, decodeOnto_eq_ok_iff empty]
  simp

theorem eq_of_decodeOnto (h : decodeOnto room s out = .error e) : e = .badRequestPath := by
  fun_induction decodeOnto room s out with
  | case1 => cases h
  | case2 _ _ _ _ _ _ _ ih => exact ih h
  | case3 => cases h; rfl
  | case4 => cases h; rfl
  | case5 => cases h; rfl
  | case6 _ _ _ _ _ ih => exact ih h
  | case7 => cases h; rfl

theorem percentDecode_eq_error_iff :
    percentDecode s = .error e ↔ e = .badRequestPath ∧ ∀ x, ¬ Encodes s x := by
  constructor
  · intro failed
    refine ⟨eq_of_decodeOnto failed, fun x encodes => ?_⟩
    rw [percentDecode_eq_ok_iff.2 encodes] at failed
    cases failed
  · rintro ⟨rfl, undecoded⟩
    cases decoded : percentDecode s with
    | ok x => exact absurd (percentDecode_eq_ok_iff.1 decoded) (undecoded x)
    | error e => rw [eq_of_decodeOnto decoded]

/-- A token is decoded for itself, and what follows it as if it stood alone. -/
theorem percentDecode_append (h : Token token b) (s : Bytes) :
    percentDecode (token ++ s) = (percentDecode s).map (b :: ·) := by
  cases decoded : percentDecode s with
  | ok x =>
    exact percentDecode_eq_ok_iff.2 (.cons h (percentDecode_eq_ok_iff.1 decoded))
  | error e =>
    obtain ⟨rfl, undecoded⟩ := percentDecode_eq_error_iff.1 decoded
    refine percentDecode_eq_error_iff.2 ⟨rfl, fun x encodes => ?_⟩
    obtain ⟨y, -, behind⟩ := (encodes_append_iff h).1 encodes
    exact undecoded y behind

/-! ## Buffers -/

theorem drop_of_tokenAt? {h : i < s.length} (token : tokenAt? s i h = some (b, j)) :
    ∃ token, Token token b ∧ s.drop i = token ++ s.drop j := by
  unfold tokenAt? at token
  split at token
  · rename_i sign
    split at token
    · rename_i ahead
      obtain ⟨c, pair, same⟩ := Option.map_eq_some_iff.1 token
      cases same
      refine ⟨_, hexPair?_eq_some_iff.1 pair, ?_⟩
      rw [List.drop_eq_getElem_cons h, List.drop_eq_getElem_cons (show i + 1 < s.length by omega),
        List.drop_eq_getElem_cons ahead, sign]
      rfl
    · cases token
  · rename_i plain
    cases token
    exact ⟨[s[i]], .plain _ plain, List.drop_eq_getElem_cons h⟩

theorem decodeOnto_append (h : Token token b) (room : Nat) (rest : Bytes) (out : Array UInt8) :
    decodeOnto room (token ++ rest) out =
      if out.size < room then decodeOnto room rest (out.push b) else .error .badRequestPath := by
  cases h with
  | plain b plain =>
    conv_lhs => unfold decodeOnto
    exact if_neg plain
  | escaped high low =>
    have pair := hexPair?_eq_some_iff.2 (Token.escaped high low)
    simp only [List.cons_append, List.nil_append, decodeOnto, if_pos, pair]

theorem decodeOnto_of_tokenAt? {h : i < s.length} (token : tokenAt? s i h = none) :
    decodeOnto room (s.drop i) out = .error .badRequestPath := by
  unfold tokenAt? at token
  split at token
  · rename_i sign
    rw [List.drop_eq_getElem_cons h]
    unfold decodeOnto
    rw [if_pos sign]
    split at token
    · rename_i ahead
      have pair := Option.map_eq_none_iff.1 token
      rw [List.drop_eq_getElem_cons (show i + 1 < s.length by omega),
        List.drop_eq_getElem_cons ahead]
      simp only [pair]
    · rename_i short
      have length : (s.drop (i + 1)).length < 2 := by
        rw [List.length_drop]
        omega
      generalize s.drop (i + 1) = rest at length
      cases rest with
      | nil => rfl
      | cons hi rest =>
        cases rest with
        | nil => rfl
        | cons lo rest =>
          rw [List.length_cons, List.length_cons] at length
          omega
  · cases token

theorem bytes_decodeFrom (room : Nat) (s : Bytes) (i : Nat) (buffer : Array UInt8) :
    (decodeFrom room s i buffer).bytes = decodeOnto room (s.drop i) buffer := by
  fun_induction decodeFrom room s i buffer with
  | case1 i buffer h token => rw [decodeOnto_of_tokenAt? token]; rfl
  | case2 i buffer h b j token full =>
    obtain ⟨first, isToken, parts⟩ := drop_of_tokenAt? token
    rw [parts, decodeOnto_append isToken, if_neg (by omega)]
    rfl
  | case3 i buffer h b j token space ih =>
    obtain ⟨first, isToken, parts⟩ := drop_of_tokenAt? token
    rw [parts, decodeOnto_append isToken, if_pos (by omega), ih]
  | case4 i buffer h =>
    rw [List.drop_of_length_le (by omega)]
    rfl

theorem decodeInto_eq (s : Bytes) (buffer : Array UInt8) :
    decodeInto s buffer = decodeFrom s.length s 0 #[] := by
  have empty : buffer.take 0 = #[] := by simp
  rw [decodeInto, empty]

/-- What a buffer held before makes no difference. -/
theorem bytes_decodeInto (s : Bytes) (buffer : Array UInt8) :
    (decodeInto s buffer).bytes = percentDecode s := by
  rw [decodeInto_eq, bytes_decodeFrom]
  rfl

/-- The decoder has never written more bytes than it has read. -/
theorem Decoding.size_le (h : Decoding s i out) : out.size ≤ i := by
  induction h with
  | start => exact Nat.le_refl _
  | token here h token ih =>
    have := (tokenAt?_bounds token).1
    rw [Array.size_push]
    omega

theorem decodeFrom_of_tokenAt? {h : i < s.length} (token : tokenAt? s i h = some (b, j))
    (fits : out.size < room) : decodeFrom room s i out = decodeFrom room s j (out.push b) := by
  conv_lhs => unfold decodeFrom
  rw [dif_pos h]
  split
  · rename_i malformed
    rw [token] at malformed
    cases malformed
  · rename_i b' j' token'
    rw [token] at token'
    cases token'
    exact if_neg (by omega)

/-- Decoding does come to the places that it is said to come to, and goes on from there. -/
theorem Decoding.decodeInto_eq (h : Decoding s i out) (buffer : Array UInt8) :
    decodeInto s buffer = decodeFrom s.length s i out := by
  induction h with
  | start => exact Path.decodeInto_eq s buffer
  | token here h token ih =>
    rw [ih, decodeFrom_of_tokenAt? token (Nat.lt_of_le_of_lt here.size_le h)]

/-! ## Main result -/

/-- Whatever the buffer held, decoding gives what the source encodes, and refuses it if it encodes
nothing. No byte is decoded twice: each token is decoded for itself. What is decoded is no longer than
the source, and wherever decoding comes to, there is room in the buffer for one more byte. -/
theorem percentDecode_undoes_encoding (s : Bytes) :
    (∀ buffer, (decodeInto s buffer).bytes = percentDecode s) ∧
    (∀ x, percentDecode s = .ok x ↔ Encodes s x) ∧
    (∀ e, percentDecode s = .error e ↔ e = .badRequestPath ∧ ∀ x, ¬ Encodes s x) ∧
    (∀ token b, Token token b → percentDecode (token ++ s) = (percentDecode s).map (b :: ·)) ∧
    (∀ x, percentDecode s = .ok x → x.length ≤ s.length) ∧
    ∀ i out, Decoding s i out →
      (∀ buffer, decodeInto s buffer = decodeFrom s.length s i out) ∧
      ∀ (h : i < s.length) (b : UInt8) (j : Nat), tokenAt? s i h = some (b, j) →
        out.size < s.length := by
  refine ⟨bytes_decodeInto s, fun x => percentDecode_eq_ok_iff, fun e => percentDecode_eq_error_iff,
    fun token b h => percentDecode_append h s, fun x decoded => ?_,
    fun i out comes => ⟨comes.decodeInto_eq, fun h b j _ => ?_⟩⟩
  · exact (percentDecode_eq_ok_iff.1 decoded).length_le
  · exact Nat.lt_of_le_of_lt comes.size_le h

/-- An encoded percent sign and two digits, and a letter in two ways. -/
def sampleEncoded : Bytes := .ofString "%2541%6a%4Ak"

theorem percentDecode_sampleEncoded :
    (decodeInto sampleEncoded #[1, 2, 3]).bytes = .ok (.ofString "%41jJk") ∧
      Encodes sampleEncoded (.ofString "%41jJk") ∧
      Token (.ofString "%25") percent ∧
      percentDecode (.ofString "%25" ++ sampleEncoded) = .ok (.ofString "%%41jJk") ∧
      (Bytes.ofString "%41jJk").length ≤ sampleEncoded.length ∧
      Decoding sampleEncoded 3 #[percent] ∧
      tokenAt? sampleEncoded 3 (by decide) = some (0x34, 4) ∧
      (#[percent] : Array UInt8).size < sampleEncoded.length := by
  have decoded : percentDecode sampleEncoded = .ok (.ofString "%41jJk") := rfl
  have sign : Token (.ofString "%25") percent :=
    .escaped (.decimal 2 (by decide)) (.decimal 5 (by decide))
  have comes : Decoding sampleEncoded 3 #[percent] := .token .start (by decide) rfl
  have next : tokenAt? sampleEncoded 3 (by decide) = some (0x34, 4) := rfl
  obtain ⟨buffers, encoding, -, apart, size, room⟩ := percentDecode_undoes_encoding sampleEncoded
  refine ⟨(buffers _).trans decoded, (encoding _).1 decoded, sign, ?_, size _ decoded, comes, next,
    (room 3 _ comes).2 _ _ _ next⟩
  rw [apart _ _ sign, decoded]
  rfl

end HttpServer.Path

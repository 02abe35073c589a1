import HttpServer.Proofs.Fields
import HttpServer.Proofs.Transcript
import HttpServer.Request.FramingLines
/-!
# What the framing lines hide

A name is compared as it stands before the colon, so a line whose name is bare is read as everybody
reads it: it is about no encoding (`WellFormed.isAbout_encoding`), and if it is about the size of the
body it carries the size that is used (`WellFormed.numberOf?_line`). With blanks around its name a line
is one like any other. `Service.framed_processNext_iff` says which heads agree in all their lines with where the
connection looks for the next request, and `Service.not_framed_sampleChunked` shows one that does not.
-/
namespace HttpServer

open Bytes

namespace Request

variable {f : FieldText} {t : HeadText} {limits : RequestLimits} {n : Nat}

/-! ## The parts of a line -/

namespace FieldText

theorem WellFormed.ne_colon (h : f.WellFormed) : ∀ b ∈ f.name, (b != Field.colon) = true :=
  fun _ hb => bne_iff_ne.2 fun e => h.2.1 (e ▸ hb)

theorem line_eq (f : FieldText) :
    f.line = f.name ++ Field.colon :: (spacing f.spaces ++ f.value) := by
  simp only [line, List.append_assoc, List.cons_append]

theorem WellFormed.nameOf_line (h : f.WellFormed) : nameOf f.line = f.name := by
  rw [nameOf, line_eq, List.takeWhile_append_of_pos h.ne_colon, List.takeWhile_cons_of_neg (by simp),
    List.append_nil]

theorem WellFormed.valueOf_line (h : f.WellFormed) : valueOf f.line = f.value := by
  rw [valueOf, line_eq, List.dropWhile_append_of_pos h.ne_colon, List.dropWhile_cons_of_neg (by simp)]
  exact skipSpaces_spacing h.2.2.2.1

/-- A name without blanks around it is the name of the field. -/
theorem WellFormed.isNamed_eq (h : f.WellFormed) (bare : isPadded f.line = false) (name : Bytes) :
    f.field.isNamed name = isAbout name f.line := by
  rw [isPadded, bne_eq_false_iff_eq] at bare
  rw [isAbout, bare, h.nameOf_line]
  rfl

end FieldText

/-! ## Heads -/

namespace HeadText

theorem WellFormed.fieldLines_render (h : t.WellFormed limits) :
    fieldLines t.render = t.fields.map FieldText.line := by
  rw [fieldLines, render_eq_unlines, unlines_cons, cut?_crlf_line (indexOf?_eq_none_iff.1 h.line)]
  exact lines_unlines h.isLine

theorem contentLength_request (t : HeadText) :
    t.request.contentLength = t.contentLength.getD 0 := by
  obtain ⟨path, isApi, classified⟩ := t.unclassified.exists_classify
  rw [request, classified]
  rfl

/-- A line whose name is bare is never about an encoding. -/
theorem WellFormed.isAbout_encoding (h : t.WellFormed limits) (hf : f ∈ t.fields)
    (bare : isPadded f.line = false) : isAbout Field.transferEncoding f.line = false := by
  rw [← (h.fields f hf).isNamed_eq bare, Bool.eq_false_iff]
  intro named
  have mem : f.value ∈ t.values Field.transferEncoding :=
    List.mem_map_of_mem (List.mem_filter.2 ⟨hf, named⟩)
  rw [h.encoding] at mem
  cases mem

/-- A line whose name is bare carries the size of the body, unless its number has no digits. -/
theorem WellFormed.numberOf?_line (h : t.WellFormed limits) (number : t.contentLength = some n)
    (hf : f ∈ t.fields) (bare : isPadded f.line = false)
    (about : isAbout Field.contentLength f.line = true) :
    numberOf? f.line = some n ↔ (valueOf f.line).head? ≠ some cr := by
  have hw := h.fields f hf
  rw [← hw.isNamed_eq bare] at about
  have mem : f.value ∈ t.values Field.contentLength :=
    List.mem_map_of_mem (List.mem_filter.2 ⟨hf, about⟩)
  rw [numberOf?, hw.valueOf_line, Ne, ← digitsOf_eq_nil_iff hw.2.2.1]
  constructor
  · intro digits noDigits
    change Decimal.number? (digitsOf f.value) = some n at digits
    rw [noDigits] at digits
    cases digits
  · exact Decimal.number?_of_read? (read?_of_mem_values number mem)

/-- An accepted head frames its body if it does so in the lines whose names are padded, and if no
number without digits stands in the others. -/
theorem WellFormed.framed_iff (h : t.WellFormed limits) (number : t.contentLength = some n) :
    Framed t.render n ↔ ∀ line ∈ fieldLines t.render,
      (isPadded line = true → isAbout Field.transferEncoding line = false ∧
        (isAbout Field.contentLength line = true → numberOf? line = some n)) ∧
      (isPadded line = false → isAbout Field.contentLength line = true →
        (valueOf line).head? ≠ some cr) := by
  have bare {line} (hl : line ∈ fieldLines t.render) (bare : isPadded line = false) :
      isAbout Field.transferEncoding line = false ∧ (isAbout Field.contentLength line = true →
        (numberOf? line = some n ↔ (valueOf line).head? ≠ some cr)) := by
    rw [h.fieldLines_render] at hl
    obtain ⟨f, hf, rfl⟩ := List.mem_map.1 hl
    exact ⟨h.isAbout_encoding hf bare, h.numberOf?_line number hf bare⟩
  constructor
  · intro framed line hl
    exact ⟨fun _ => ⟨framed.encoding line hl, framed.length line hl⟩,
      fun unpadded about => ((bare hl unpadded).2 about).1 (framed.length line hl about)⟩
  · intro clean
    refine ⟨fun line hl => ?_, fun line hl about => ?_⟩
    · cases padded : isPadded line with
      | true => exact ((clean line hl).1 padded).1
      | false => exact (bare hl padded).1
    · cases padded : isPadded line with
      | true => exact ((clean line hl).1 padded).2 about
      | false => exact ((bare hl padded).2 about).2 ((clean line hl).2 padded about)

end HeadText

end Request

namespace Service

/-- What is taken for an answered request is its head and the body that `Request.parse` finds. All
framing lines of the head agree with that, in whichever way they are spelled, exactly if those with a
padded name do and no other has a number without digits. -/
theorem framed_processNext_iff {s : Service} {b : ReceiveBuffer} {r : Response}
    (answered : (s.processNext b).result = .ok (some r)) :
    ∃ i request, indexOf? blankLine b.pending = some i ∧
      Request.parse s.requests (b.pending.take (i + 2)) = .ok request ∧
      (s.processNext b).buffer = b.consume (i + 4 + request.contentLength) ∧
      (Request.Framed (b.pending.take (i + 2)) request.contentLength ↔
        ∀ line ∈ Request.fieldLines (b.pending.take (i + 2)),
          (Request.isPadded line = true →
            Request.isAbout Field.transferEncoding line = false ∧
            (Request.isAbout Field.contentLength line = true →
              Request.numberOf? line = some request.contentLength)) ∧
          (Request.isPadded line = false → Request.isAbout Field.contentLength line = true →
            (Request.valueOf line).head? ≠ some cr)) := by
  obtain ⟨total, verdict, buffer⟩ := judge_of_processNext answered
  cases judged_iff.2 verdict with
  | @answered i request path head parsed admissible there resolved =>
    refine ⟨i, request, head, parsed, buffer, ?_⟩
    obtain ⟨ends, noBlank⟩ := head_of_indexOf? head
    obtain ⟨l, ls, hlines, whole, areLines⟩ := exists_eq_unlines _ ends noBlank
    rw [hlines] at parsed ⊢
    obtain ⟨t, text, wellFormed⟩ := Request.HeadText.exists_of_parse whole areLines parsed
    rw [← text] at parsed ⊢
    obtain rfl : t.request = request := Except.ok.inj (wellFormed.parse_render.symm.trans parsed)
    obtain ⟨n, number, -⟩ := wellFormed.body
    have size : t.request.contentLength = n := by
      rw [t.contentLength_request, number, Option.getD_some]
    rw [size]
    exact wellFormed.framed_iff number

/-- A service without files that has room for any usual request. -/
def sampleWide : Service := { docs := sample.docs }

/-- A buffer of 4096 bytes that holds some. -/
def sampleBuffer (bytes : Bytes) : ReceiveBuffer :=
  { pending := bytes, size := 4096, maxSize := sampleWide.requests.maxSize }

/-- A request with a body in a spelling of its size that is accepted. -/
def sampleCounted : Bytes := ofString "POST /api/echo HTTP/1.1\r\ncontent-LENGTH:  5\r\n\r\nhello"

theorem framed_sampleCounted :
    Request.Framed (sampleCounted.take 45) 5 ∧
      (sampleWide.processNext (sampleBuffer sampleCounted)).buffer =
        (sampleBuffer sampleCounted).consume (47 + 5) := by
  have answered : (sampleWide.processNext (sampleBuffer sampleCounted)).result =
      .ok (some (.text .ok (ofString "hello"))) := rfl
  obtain ⟨i, request, head, parsed, buffer, iff⟩ := framed_processNext_iff answered
  have first : indexOf? blankLine sampleCounted = some 43 := rfl
  obtain rfl : 43 = i := Option.some.inj (first.symm.trans head)
  have size : request.contentLength = 5 := by
    have known : (Request.parse sampleWide.requests (sampleCounted.take 45)).map
        Request.contentLength = .ok 5 := rfl
    exact Except.ok.inj ((congrArg (Except.map Request.contentLength) parsed).symm.trans known)
  rw [size] at buffer iff
  exact ⟨iff.2 (by decide), buffer⟩

/-- A request whose body comes in chunks, with a space behind the name of the encoding. -/
def sampleChunked : Bytes :=
  ofString "POST /api/echo HTTP/1.1\r\nTransfer-Encoding : chunked\r\n\r\n5\r\nhello\r\n0\r\n\r\n"

/-- A padded name hides the encoding: the request is answered without a body, and the chunks are taken
for the next request. -/
theorem not_framed_sampleChunked :
    let done := sampleWide.processNext (sampleBuffer sampleChunked)
    done.result = .ok (some (.text .ok [])) ∧
      (∀ n, ¬ Request.Framed (sampleChunked.take 54) n) ∧
      done.buffer.pending = ofString "5\r\nhello\r\n0\r\n\r\n" ∧
      (sampleWide.processNext done.buffer).result = .error .badRequestLine := by
  refine ⟨rfl, fun n framed => ?_, rfl, rfl⟩
  have line : ofString "Transfer-Encoding : chunked" ∈ Request.fieldLines (sampleChunked.take 54) := by
    decide
  exact absurd (framed.encoding _ line) (by decide)

end Service
end HttpServer

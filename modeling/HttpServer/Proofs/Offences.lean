import HttpServer.Request
/-!
# What a head is refused for

A line that is at fault is refused as soon as it is read: `Noting` and `Adding` say what a field and its
line come to. Two faults belong to no single line and are found when all lines are read: that there was
no field line, and that the method forbids the body. So these two are the only reasons that lines
further down can still change (`Request.parse_error_cases`).
-/
namespace HttpServer

/-- Whether a line of a head can be at fault for this reason. -/
def Rejection.isOfLine : Rejection → Bool
  | badRequestLine | invalidVersion | tooManyHeaders | badHeaderSyntax | invalidContentLength
  | unsupportedTransferEncoding => true
  | _ => false

/-- A loop fails for the reason of one of its steps. -/
theorem reason_of_foldlM {α β ε : Type} {f : β → α → Except ε β} {P : ε → Prop} {xs : List α} {b : β}
    {e : ε} (step : ∀ b x e, f b x = .error e → P e) (h : xs.foldlM f b = .error e) : P e := by
  induction xs generalizing b with
  | nil => cases h
  | cons x xs ih =>
    rw [List.foldlM_cons] at h
    cases first : f b x with
    | error e' =>
      rw [first] at h
      cases h
      exact step b x _ first
    | ok b' =>
      rw [first] at h
      exact ih h

namespace Request

variable {e : Rejection} {r : Request} {maxFields : Nat} {line : Bytes}

theorem isOfLine_of_ofLine (h : ofLine line = .error e) : e.isOfLine = true := by
  unfold ofLine at h
  split at h
  · cases h
    rfl
  · split at h
    · cases h
      rfl
    · split at h
      · cases h
        rfl
      · simp only at h
        split at h
        · cases h
        · cases h
          rfl

/-- What a field comes to when it is noted, by its name. -/
inductive Noting (r : Request) (f : Field) : Except Rejection Request → Prop where
  | type (named : f.isNamed Field.contentType = true) :
      Noting r f (.ok { r with contentType := some f.value })
  | repeated (named : f.isNamed Field.contentLength = true) (seen : r.contentLengthSeen = true) :
      Noting r f (.error .invalidContentLength)
  | noNumber (named : f.isNamed Field.contentLength = true)
      (read : Decimal.read? (f.value.takeWhile (· != Bytes.cr)) = none) :
      Noting r f (.error .invalidContentLength)
  | length {n : Nat} (named : f.isNamed Field.contentLength = true)
      (unseen : r.contentLengthSeen = false)
      (read : Decimal.read? (f.value.takeWhile (· != Bytes.cr)) = some n) :
      Noting r f (.ok { r with contentLength := n, contentLengthSeen := true })
  | close (named : f.isNamed Field.connection = true) : Noting r f (.ok { r with keepAlive := false })
  | encoding (named : f.isNamed Field.transferEncoding = true) :
      Noting r f (.error .unsupportedTransferEncoding)
  | other : Noting r f (.ok r)

theorem noting (r : Request) (f : Field) : Noting r f (r.note f) := by
  unfold note
  split
  · exact .type ‹_›
  · split
    · rename_i named
      unfold noteContentLength
      split
      · exact .repeated named ‹_›
      · rename_i unseen
        split
        · exact .noNumber named ‹_›
        · exact .length named (Bool.not_eq_true _ ▸ unseen) ‹_›
    · split
      · rename_i named
        split
        · exact .close named
        · exact .other
      · split
        · exact .encoding ‹_›
        · exact .other

/-- What a field line comes to. -/
inductive Adding (maxFields : Nat) (r : Request) (line : Bytes) : Except Rejection Request → Prop where
  | full (many : maxFields ≤ r.fields.size) : Adding maxFields r line (.error .tooManyHeaders)
  | noField (read : Field.ofLine? line = none) : Adding maxFields r line (.error .badHeaderSyntax)
  | refused {f : Field} {e : Rejection} (read : Field.ofLine? line = some f)
      (noted : r.note f = .error e) : Adding maxFields r line (.error e)
  | added {f : Field} {r' : Request} (room : r.fields.size < maxFields)
      (read : Field.ofLine? line = some f) (noted : r.note f = .ok r') :
      Adding maxFields r line (.ok { r' with fields := r'.fields.push f })

theorem adding (maxFields : Nat) (r : Request) (line : Bytes) :
    Adding maxFields r line (addLine maxFields r line) := by
  unfold addLine
  split
  · exact .full ‹_›
  · rename_i room
    split
    · exact .noField ‹_›
    · rename_i f read
      split
      · exact .refused read ‹_›
      · exact .added (Nat.lt_of_not_le room) read ‹_›

theorem isOfLine_of_note {f : Field} (h : r.note f = .error e) : e.isOfLine = true := by
  have outcome := noting r f
  rw [h] at outcome
  cases outcome <;> rfl

theorem isOfLine_of_addLine (h : addLine maxFields r line = .error e) : e.isOfLine = true := by
  have outcome := adding maxFields r line
  rw [h] at outcome
  cases outcome with
  | full many => rfl
  | noField read => rfl
  | refused read noted => exact isOfLine_of_note noted

/-- A head is refused for one of its lines, or because of what all of them leave open. -/
theorem parse_error_cases {limits : RequestLimits} {head : Bytes} (h : parse limits head = .error e) :
    e.isOfLine = true ∨ e = .missingRequiredHeaders ∨ e = .bodyNotAllowed := by
  unfold parse at h
  split at h
  · cases h
    exact .inl rfl
  · split at h
    · rename_i first
      cases h
      exact .inl (isOfLine_of_ofLine first)
    · split at h
      · cases h
        exact .inr (.inl rfl)
      · split at h
        · rename_i fold
          cases h
          exact .inl (reason_of_foldlM (P := (·.isOfLine = true)) (fun _ _ _ => isOfLine_of_addLine) fold)
        · split at h
          · cases h
            exact .inr (.inr rfl)
          · cases h

end Request
end HttpServer

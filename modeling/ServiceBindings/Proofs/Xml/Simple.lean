import ServiceBindings.Proofs.Plan.Bindings
import ServiceBindings.Proofs.Text.Base64
import ServiceBindings.Proofs.Time.DateTime
import ServiceBindings.Proofs.Value.ReadBack
import ServiceBindings.Proofs.Xml.Elements
import ServiceBindings.Request.Scalar

/-! Data without parts are read back from the texts as which elements hold them. -/
namespace ServiceBindings.Xml
open Plan (Target)

/-- Data without parts that texts tell exactly: no floats and no sources, and instants as date and
time. -/
def IsExact (kind : Scalar) (format : Option Time.Format) (_ : Bool) : Value → Prop
  | .string _ => kind = .string
  | .boolean _ => kind = .boolean
  | .integer i => kind = .integer ∧ -Text.int64Bound ≤ i ∧ i < Text.int64Bound
  | .timestamp t =>
    kind = .timestamp ∧ (format = none ∨ format = some .dateTime) ∧ Time.HasPlainYear t
  | .blob _ => kind = .blob
  | _ => False

/-- A text as which a value is written, and from which the value is read. -/
structure Tells (target : Target) (value : Value) (text : String) : Prop extends
    Reads .xml target value (.string text) where
  written : ∀ path, Request.scalarText .dateTime path target value = .ok text
  chars : IsText text

theorem tells_of_read {target : Target} {value : Value} {text : String}
    (hwritten : ∀ path, Request.scalarText .dateTime path target value = .ok text)
    (hread : ∀ path, readPresent .xml path (.string text) target = .ok value)
    (hsame : value.same value = true) (hchars : IsText text) : Tells target value text :=
  ⟨⟨rfl, fun path => ⟨value, hread path, hsame⟩⟩, hwritten, hchars⟩

theorem isChar_of_isDigit {c : Char} (h : c.isDigit = true) : isChar c = true := by
  have hc : 48 ≤ c.toNat ∧ c.toNat ≤ 57 := by
    simpa [Char.isDigit, UInt32.le_iff_toNat_le] using h
  have hne : c.toNat ≠ 0xFFFE ∧ c.toNat ≠ 0xFFFF := by omega
  rw [isChar, if_neg (by omega)]
  simpa using hne

theorem isChar_symbol {n : Nat} (h : n < 64) : isChar (Text.Base64.symbol n) = true := by
  revert n
  decide

theorem isText_integer (i : Int) : IsText (Text.integer i) := by
  intro c hc
  rcases Text.isDigit_of_mem_integer hc with hc | rfl
  · exact isChar_of_isDigit hc
  · decide

theorem isText_encode (bytes : Bytes) : IsText (Text.Base64.encode bytes) := by
  intro c hc
  rw [Text.Base64.encode, String.toList_ofList] at hc
  rcases Text.Base64.mem_encodeChars hc with rfl | ⟨n, hn, rfl⟩
  · decide
  · exact isChar_symbol hn

theorem isText_dateTime {t : Instant} {s : String} (h : Time.format? t .dateTime = some s) :
    IsText s := by
  obtain ⟨chars, hchars, rfl⟩ := Option.map_eq_some_iff.1 h
  have hmarks : ∀ c ∈ ['-', 'T', ':', '.', 'Z'], isChar c = true :=
    List.all_eq_true.1 (by decide)
  intro c hc
  rw [String.toList_ofList] at hc
  exact (Time.isDigit_of_mem_dateTime hchars hc).elim isChar_of_isDigit (hmarks c)

theorem tells_boolean (b : Bool) (format : Option Time.Format) (streaming : Bool) :
    Tells (.scalar .boolean format streaming) (.boolean b) (if b then "true" else "false") := by
  refine tells_of_read (fun _ => rfl) (fun path => ?_) (by simp [Value.same]) ?_
  · cases b <;> rfl
  · revert b
    decide

theorem tells_integer {i : Int} (h : -Text.int64Bound ≤ i ∧ i < Text.int64Bound)
    (format : Option Time.Format) (streaming : Bool) :
    Tells (.scalar .integer format streaming) (.integer i) (Text.integer i) := by
  refine tells_of_read (fun _ => rfl) (fun path => ?_) (by simp [Value.same]) (isText_integer i)
  simp [readPresent, readScalar, Text.trimmed_integer, Text.int64?_integer h]

/-- The form of a date and time is the first that is tried when none is asked for. -/
theorem exists_tells_timestamp {t : Instant} (h : Time.HasPlainYear t)
    {format : Option Time.Format} (hformat : format = none ∨ format = some .dateTime)
    (streaming : Bool) :
    ∃ text, Tells (.scalar .timestamp format streaming) (.timestamp t) text := by
  obtain ⟨s, hs, hread⟩ := Time.exists_format?_dateTime h
  refine ⟨s, tells_of_read (fun path => ?_) (fun path => ?_) (by simp [Value.same])
    (isText_dateTime hs)⟩
  · rcases hformat with rfl | rfl <;> simp [Request.scalarText, Request.instantText, hs]
  · rcases hformat with rfl | rfl <;>
      simp [readPresent, readScalar, readInstant, Time.readAny?, hread]

theorem tells_blob (bytes : Bytes) (format : Option Time.Format) (streaming : Bool) :
    Tells (.scalar .blob format streaming) (.blob bytes) (Text.Base64.encode bytes) := by
  refine tells_of_read (fun _ => rfl) (fun path => ?_) (by simp [Value.same]) (isText_encode bytes)
  simp [readPresent, readScalar, readBlob, Text.Base64.decode?_encode]

/-- Every value without parts is read back from a text as which it is written. -/
theorem exists_tells {target : Target} {value : Value} (hsimple : target.IsSimple)
    (hfits : value.Fits IsExact target) (htext : ∀ s, value = .string s → IsText s) :
    ∃ text, Tells target value text := by
  cases target with
  | enumeration e =>
    obtain ⟨s, rfl⟩ := hfits
    exact ⟨s, tells_of_read (fun _ => rfl) (fun _ => rfl) (by simp [Value.same]) (htext s rfl)⟩
  | scalar kind format streaming =>
    cases value with
    | string s =>
      obtain rfl : kind = .string := hfits
      exact ⟨s, tells_of_read (fun _ => rfl) (fun _ => rfl) (by simp [Value.same]) (htext s rfl)⟩
    | boolean b =>
      obtain rfl : kind = .boolean := hfits
      exact ⟨_, tells_boolean b format streaming⟩
    | integer i =>
      obtain ⟨rfl, hi⟩ : kind = .integer ∧ _ := hfits
      exact ⟨_, tells_integer hi format streaming⟩
    | timestamp t =>
      obtain ⟨rfl, hformat, ht⟩ : kind = .timestamp ∧ _ := hfits
      exact exists_tells_timestamp ht hformat streaming
    | blob bytes =>
      obtain rfl : kind = .blob := hfits
      exact ⟨_, tells_blob bytes format streaming⟩
    | float _ | stream _ | list _ | map _ | «structure» _ _ => exact hfits.elim
  | list | map | «structure» => exact hsimple.elim

end ServiceBindings.Xml

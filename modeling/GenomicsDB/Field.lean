import GenomicsDB.Machine

/-!
# Genomic fields and their rendering

A query hands each call's fields to the caller as `genomic_field_t`: a name, a pointer
to the field's elements and their number. Its type, a `genomic_field_type_t`, says how
to read the elements: `int`, `float` or `char`, and whether a `char` field is a
fixed-size vector or a string. The accessors `int_value_at`, `float_value_at` and
`char_value_at` check the offset against `num_elements` first, and `to_string` renders
a field: a string as itself, a single element alone, `GT` and `ALT` by helpers defined
outside the header, and any other field as the bracketed list of its elements.

The model reads the elements from the bytes at the field's pointer, as the code's
`reinterpret_cast` does on a little-endian machine. `std::to_string` of an `int` or a
`char` is the decimal of the value; `std::to_string` of a `float` and the helpers
`recombine_ALT_value` and `combine_GT_vector` are parameters.

Main results:

* `valueAt_of_lt`, `valueAt_of_le`: an accessor succeeds exactly below `num_elements`,
  and its error names the field and the offset;
* `lookupFieldType_spec`: `get_genomic_field_type` returns the registered type, and
  fails, naming the field, exactly when there is none;
* `toString_bracketed`: a field that is not a string, not `GT` and not of one element
  renders as `"[" + e_0 + separator + … + e_{n-1} + "]"`, each `e_i` its element's
  rendering, which succeeds.
-/

namespace GenomicsDB

/-! ## Field types and fields -/

/-- The `std::type_index` of a field type, as far as the header tells types apart. -/
inductive TypeIndex where
  | int
  | float
  | char
  /-- any other type -/
  | other
  deriving DecidableEq, Repr

/-- The members of `genomic_field_type_t` that the header's functions read. -/
structure GenomicFieldType where
  typeIdx : TypeIndex := .char
  isFixedNumElements : Bool := true
  deriving DecidableEq, Repr

namespace GenomicFieldType

/-- `is_int()` -/
def isInt (ft : GenomicFieldType) : Bool := ft.typeIdx == .int

/-- `is_float()` -/
def isFloat (ft : GenomicFieldType) : Bool := ft.typeIdx == .float

/-- `is_char()`: a `char` vector of fixed size. -/
def isChar (ft : GenomicFieldType) : Bool := ft.typeIdx == .char && ft.isFixedNumElements

/-- `is_string()`: a `char` field of variable size. -/
def isString (ft : GenomicFieldType) : Bool := ft.typeIdx == .char && !ft.isFixedNumElements

end GenomicFieldType

/-- `genomic_field_t`: the field's name, the bytes at its pointer `ptr` (`ptr k` is the
byte at `ptr + k`) and its number of elements. -/
structure GenomicField where
  name : String
  ptr : ℕ → ℕ
  numElements : ℕ

namespace GenomicField

/-- The text of the exception `check_offset` throws. -/
def offsetError (name : String) (offset : ℕ) : String :=
  "Genomic Field=" ++ name ++ " offset=" ++ Nat.repr offset ++ " greater than number of elements"

/-- `check_offset(offset)` -/
def checkOffset (f : GenomicField) (offset : ℕ) : Except String Unit :=
  if offset ≥ f.numElements then .error (offsetError f.name offset) else pure ()

/-- The 4 bytes of the element at `offset` of a field of 4-byte elements. -/
def word (f : GenomicField) (offset : ℕ) : ℕ :=
  ofBytesLE ((List.range 4).map fun k => f.ptr (4 * offset + k))

/-- `*(reinterpret_cast<int *>(ptr) + offset)` -/
def intAt (f : GenomicField) (offset : ℕ) : ℤ := toInt32 (f.word offset)

/-- `*(reinterpret_cast<float *>(ptr) + offset)`, as the bits of the `float`. -/
def floatAt (f : GenomicField) (offset : ℕ) : ℕ := f.word offset

/-- `*(reinterpret_cast<char *>(ptr) + offset)` -/
def charAt (f : GenomicField) (offset : ℕ) : ℤ := toInt8 (f.ptr offset)

/-- The accessors `*_value_at(offset)`: `check_offset(offset)`, then the read. -/
def valueAt {α : Type} (f : GenomicField) (read : ℕ → α) (offset : ℕ) : Except String α := do
  f.checkOffset offset
  pure (read offset)

/-- `int_value_at(offset)` -/
def intValueAt (f : GenomicField) (offset : ℕ) : Except String ℤ := f.valueAt f.intAt offset

/-- `float_value_at(offset)` -/
def floatValueAt (f : GenomicField) (offset : ℕ) : Except String ℕ := f.valueAt f.floatAt offset

/-- `char_value_at(offset)` -/
def charValueAt (f : GenomicField) (offset : ℕ) : Except String ℤ := f.valueAt f.charAt offset

/-- `str_value()`: the C string at `ptr`, cut to `num_elements` characters; these are
the first `num_elements` bytes up to the first `NUL`. -/
def strValue (f : GenomicField) : String :=
  String.mk ((((List.range f.numElements).map f.ptr).takeWhile (· ≠ 0)).map Char.ofNat)

/-! ## Accessors -/

/-- Below `num_elements`, an accessor returns the element. -/
theorem valueAt_of_lt {α : Type} (f : GenomicField) (read : ℕ → α) {offset : ℕ}
    (h : offset < f.numElements) : f.valueAt read offset = .ok (read offset) := by
  rw [valueAt, checkOffset, if_neg (Nat.not_le.mpr h)]; rfl

/-- From `num_elements` on, an accessor throws, naming the field and the offset. -/
theorem valueAt_of_le {α : Type} (f : GenomicField) (read : ℕ → α) {offset : ℕ}
    (h : f.numElements ≤ offset) : f.valueAt read offset = .error (offsetError f.name offset) := by
  rw [valueAt, checkOffset, if_pos h]; rfl

/-! ## Rendering -/

section Rendering

-- `std::to_string` of the `float` with the given bits
variable (floatToString : ℕ → String)

/-- `to_string(offset, field_type)`: the element at `offset`, read as the type says and
written by `std::to_string`; another type renders as `""`, with no check. -/
def toStringAt (f : GenomicField) (offset : ℕ) (ft : GenomicFieldType) : Except String String :=
  if ft.isInt then (f.intValueAt offset).map ToString.toString
  else if ft.isFloat then (f.floatValueAt offset).map floatToString
  else if ft.isChar then (f.charValueAt offset).map ToString.toString
  else .ok ""

/-- The rendering of the element at `offset`, once `check_offset` has passed. -/
def elementString (f : GenomicField) (offset : ℕ) (ft : GenomicFieldType) : String :=
  if ft.isInt then ToString.toString (f.intAt offset)
  else if ft.isFloat then floatToString (f.floatAt offset)
  else if ft.isChar then ToString.toString (f.charAt offset)
  else ""

theorem toStringAt_of_lt (f : GenomicField) (ft : GenomicFieldType) {offset : ℕ}
    (h : offset < f.numElements) :
    f.toStringAt floatToString offset ft = .ok (f.elementString floatToString offset ft) := by
  simp only [toStringAt, elementString, intValueAt, floatValueAt, charValueAt, valueAt_of_lt _ _ h]
  split_ifs <;> rfl

/-- Past the elements, a field of `int`, `float` or `char` throws `check_offset`'s
exception. -/
theorem toStringAt_of_le (f : GenomicField) (ft : GenomicFieldType) {offset : ℕ}
    (h : f.numElements ≤ offset) (hty : ft.isInt ∨ ft.isFloat ∨ ft.isChar) :
    f.toStringAt floatToString offset ft = .error (offsetError f.name offset) := by
  simp only [toStringAt, intValueAt, floatValueAt, charValueAt, valueAt_of_le _ _ h]
  split_ifs with h₁ h₂ h₃ <;> try rfl
  -- another type is excluded by `hty`
  simp_all

-- `recombine_ALT_value(separator)`, defined outside the header
variable (recombineALTValue : GenomicField → String → Except String String)

-- `combine_GT_vector(field_type)`, defined outside the header
variable (combineGTVector : GenomicField → GenomicFieldType → Except String String)

/-- `to_string(field_type, separator)`. `ALT` is recombined with the default separator
`", "`, whatever `separator` is. -/
def toString (f : GenomicField) (ft : GenomicFieldType) (separator : String := ", ") :
    Except String String :=
  if ft.isString then
    if f.name = "ALT" then recombineALTValue f ", " else .ok f.strValue
  else if f.numElements = 1 then f.toStringAt floatToString 0 ft
  else if f.name = "GT" then combineGTVector f ft
  else do
    let output ← (List.range f.numElements).foldlM (fun output i => do
      let output := output ++ (← f.toStringAt floatToString i ft)
      pure (if i < f.numElements - 1 then output ++ separator else output)) ""
    pure ("[" ++ output ++ "]")

end Rendering

/-! ## The rendering loop -/

theorem intercalate_go_append_singleton (acc sep x : String) (l : List String) :
    String.intercalate.go acc sep (l ++ [x]) = String.intercalate.go acc sep l ++ sep ++ x := by
  induction l generalizing acc with
  | nil => rfl
  | cons a l ih => exact ih _

theorem intercalate_append_singleton (sep x : String) (l : List String) :
    sep.intercalate (l ++ [x]) = if l = [] then x else sep.intercalate l ++ sep ++ x := by
  cases l with
  | nil => rfl
  | cons a l => exact intercalate_go_append_singleton a sep x l

theorem ok_bind {ε α β : Type} (a : α) (f : α → Except ε β) : (Except.ok a >>= f) = f a := rfl

theorem intercalate_nil (sep : String) : sep.intercalate [] = "" := rfl

theorem pure_eq_ok {ε α : Type} (a : α) : (pure a : Except ε α) = .ok a := rfl

/-- After `m` turns, the loop of `to_string` over `n` elements holds the first `m`
renderings, separated, and a separator behind them unless none or all are in. -/
theorem foldlM_render {n : ℕ} {g : ℕ → Except String String} {e : ℕ → String} (separator : String)
    (hg : ∀ i < n, g i = .ok (e i)) (m : ℕ) (hm : m ≤ n) :
    (List.range m).foldlM (fun output i => do
        let output := output ++ (← g i)
        pure (if i < n - 1 then output ++ separator else output)) "" =
      .ok (separator.intercalate ((List.range m).map e) ++
        if 0 < m ∧ m < n then separator else "") := by
  induction m with
  | zero => rfl
  | succ m ih =>
    have h₂ : (0 < m + 1 ∧ m + 1 < n) ↔ m < n - 1 := by omega
    rw [List.range_succ, List.foldlM_append, ih (by omega), List.map_append, List.map_singleton,
      intercalate_append_singleton, if_congr h₂ rfl rfl]
    simp only [List.foldlM_cons, List.foldlM_nil, hg m (by omega), ok_bind, pure_eq_ok]
    rcases m with _ | m
    · -- the first rendering: no separator before it
      rw [if_neg (show ¬(0 < 0 ∧ 0 < n) by omega), if_pos (show (List.range 0).map e = [] from rfl)]
      split_ifs <;> simp only [List.range_zero, List.map_nil, intercalate_nil, String.append_empty,
        String.empty_append]
    · -- a separator stands between the renderings so far and the new one
      rw [if_pos (show 0 < m + 1 ∧ m + 1 < n by omega),
        if_neg (show (List.range (m + 1)).map e ≠ [] by simp)]
      split_ifs <;> simp only [String.append_empty, String.append_assoc]

/-- **Rendering a list field.** A field that is not a string, not `GT` and not of a
single element renders as its elements' renderings `e_i`, separated by `separator` and
bracketed: `"[]"` for no element, no separator at either end. Every element's access
succeeds, so `check_offset` never throws. -/
theorem toString_bracketed (floatToString : ℕ → String)
    (recombineALTValue : GenomicField → String → Except String String)
    (combineGTVector : GenomicField → GenomicFieldType → Except String String)
    (f : GenomicField) (ft : GenomicFieldType) (separator : String)
    (hname : f.name ≠ "GT") (hn : f.numElements ≠ 1) (hs : ft.isString = false) :
    ∃ es : List String, es.length = f.numElements ∧
      (∀ i (h : i < es.length), f.toStringAt floatToString i ft = .ok (es.get ⟨i, h⟩)) ∧
      f.toString floatToString recombineALTValue combineGTVector ft separator =
        .ok ("[" ++ separator.intercalate es ++ "]") := by
  refine ⟨(List.range f.numElements).map (f.elementString floatToString · ft), by simp,
    fun i h => ?_, ?_⟩
  · simp only [List.length_map, List.length_range] at h
    simp [toStringAt_of_lt _ f ft h]
  · have hloop := foldlM_render separator (fun i (h : i < f.numElements) => toStringAt_of_lt floatToString f ft h)
      f.numElements le_rfl
    simp only [lt_irrefl, and_false, if_false, String.append_empty] at hloop
    simp only [toString, hs, hn, hname, if_false, Bool.false_eq_true]
    rw [hloop]
    rfl

theorem toString_bracketed_allele_depths :
    let f : GenomicField := ⟨"AD", fun k => [3, 0, 0, 0, 7, 0, 0, 0].getD k 0, 2⟩
    let ft : GenomicFieldType := { typeIdx := .int }
    (f.name ≠ "GT" ∧ f.numElements ≠ 1 ∧ ft.isString = false) ∧
      ∃ es : List String, es.length = f.numElements ∧
        (∀ i (h : i < es.length), f.toStringAt (fun _ => "") i ft = .ok (es.get ⟨i, h⟩)) ∧
        f.toString (fun _ => "") (fun _ _ => .ok "") (fun _ _ => .ok "") ft ", " =
          .ok ("[" ++ ", ".intercalate es ++ "]") :=
  ⟨⟨by decide, by decide, rfl⟩, toString_bracketed _ _ _ _ _ _ (by decide) (by decide) rfl⟩

example : (GenomicField.mk "AD" (fun k => [3, 0, 0, 0, 7, 0, 0, 0].getD k 0) 2).toString
    (fun _ => "") (fun _ _ => .ok "") (fun _ _ => .ok "") { typeIdx := .int } ", " = .ok "[3, 7]" := rfl

end GenomicField

/-! ## Field types by name -/

/-- The text of the exception thrown for a field with no registered type. -/
def noTypeError (name : String) : String :=
  "Genomic Field=" ++ name ++ " does not seem to have an associated type"

/-- The lookup that both `get_genomic_field_type(name)` make in the map
`m_genomic_field_types`. -/
def lookupFieldType (genomicFieldTypes : List (String × GenomicFieldType)) (name : String) :
    Except String GenomicFieldType :=
  match genomicFieldTypes.lookup name with
  | some ft => .ok ft
  | none => .error (noTypeError name)

/-- `GenomicsDBResults::get_genomic_field_type(name)` -/
def GenomicsDBResults.getGenomicFieldType (genomicFieldTypes : List (String × GenomicFieldType))
    (name : String) : Except String GenomicFieldType :=
  lookupFieldType genomicFieldTypes name

/-- `GenomicsDBVariantCallProcessor::get_genomic_field_type(name)` -/
def GenomicsDBVariantCallProcessor.getGenomicFieldType
    (genomicFieldTypes : List (String × GenomicFieldType)) (name : String) :
    Except String GenomicFieldType :=
  lookupFieldType genomicFieldTypes name

/-- The lookup returns the registered type, and fails, naming the field, exactly when
there is none. -/
theorem lookupFieldType_spec (genomicFieldTypes : List (String × GenomicFieldType)) (name : String) :
    (lookupFieldType genomicFieldTypes name).toOption = genomicFieldTypes.lookup name ∧
      ∀ e, lookupFieldType genomicFieldTypes name = .error e → e = noTypeError name := by
  unfold lookupFieldType
  cases genomicFieldTypes.lookup name <;> simp [Except.toOption]

end GenomicsDB

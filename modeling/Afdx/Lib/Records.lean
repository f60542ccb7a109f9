import Mathlib.Data.List.Forall2
import Mathlib.Data.List.GetD
import Mathlib.Data.Nat.Notation

/-!
# Streams of records of a fixed size

A stream without separators is cut into records of a known size. What has been sent as records is read back as
the same records, and of a part of the stream one reads the records that it holds as a whole.
-/

namespace Records

variable {α β : Type*} {size : ℕ}

/-- Record number `i` of a stream. -/
def record (size : ℕ) (pad : β) (stream : List β) (i : ℕ) : Fin size → β := fun j => stream.getD (size * i + j) pad

/-- The records that a stream holds as a whole. -/
def records (size : ℕ) (pad : β) (stream : List β) : List (Fin size → β) :=
  (List.range (stream.length / size)).map (record size pad stream)

/-- The stream holds one record for each value, of those that `R` allows for it. -/
def IsStream (R : α → (Fin size → β) → Prop) (values : List α) (stream : List β) : Prop :=
  ∃ rs, List.Forall₂ R values rs ∧ stream = rs.flatMap List.ofFn

theorem length_flatMap_ofFn (rs : List (Fin size → β)) : (rs.flatMap List.ofFn).length = size * rs.length := by
  induction rs with
  | nil => rfl
  | cons r rs ih =>
    rw [List.flatMap_cons, List.length_append, List.length_ofFn, ih, List.length_cons, Nat.mul_succ, Nat.add_comm]

/-- Element `j` of record `i` of a stream that was sent as records. -/
theorem getElem?_flatMap_ofFn (rs : List (Fin size → β)) (i : ℕ) (j : Fin size) :
    (rs.flatMap List.ofFn)[size * i + j]? = rs[i]?.map fun r => r j := by
  induction rs generalizing i with
  | nil => rfl
  | cons r rs ih =>
    rw [List.flatMap_cons]
    cases i with
    | zero =>
      have hlt : size * 0 + (j : ℕ) < (List.ofFn r).length := by simp
      rw [List.getElem?_append_left hlt, List.getElem?_eq_getElem hlt]
      simp
    | succ i =>
      have hle : (List.ofFn r).length ≤ size * (i + 1) + j := by
        rw [List.length_ofFn, Nat.mul_succ]
        omega
      have hsub : size * (i + 1) + j - (List.ofFn r).length = size * i + j := by
        rw [List.length_ofFn, Nat.mul_succ]
        omega
      rw [List.getElem?_append_right hle, hsub, ih, List.getElem?_cons_succ]

/-- The first part of a stream that was sent as records holds the first of them. -/
theorem records_take (pad : β) {rs : List (Fin size → β)} {stream : List β} (h : stream <+: rs.flatMap List.ofFn) :
    records size pad stream = rs.take (stream.length / size) := by
  obtain ⟨rest, hrest⟩ := h
  have hlen : stream.length ≤ size * rs.length := by
    rw [← length_flatMap_ofFn, ← hrest, List.length_append]
    exact Nat.le_add_right ..
  have hdiv : stream.length / size ≤ rs.length := Nat.div_le_of_le_mul hlen
  refine List.ext_getElem (by simp [records, hdiv]) fun i hi _ => ?_
  have hi : i < stream.length / size := by simpa [records] using hi
  have hirs : i < rs.length := Nat.lt_of_lt_of_le hi hdiv
  simp only [records, List.getElem_map, List.getElem_range, List.getElem_take]
  funext j
  have hj : size * i + j < stream.length := by
    calc size * i + j < size * (i + 1) := by rw [Nat.mul_succ]; omega
      _ ≤ size * (stream.length / size) := Nat.mul_le_mul_left _ hi
      _ ≤ stream.length := Nat.mul_div_le ..
  have hget := getElem?_flatMap_ofFn rs i j
  rw [← hrest, List.getElem?_append_left hj, List.getElem?_eq_getElem hirs, Option.map_some] at hget
  rw [record, List.getD_eq_getElem?_getD, hget, Option.getD_some]

/-- If every record that stands for a value is decoded to it, a part of a stream is decoded to the first values. -/
theorem IsStream.map_records {R : α → (Fin size → β) → Prop} {decode : (Fin size → β) → α}
    (hdecode : ∀ a r, R a r → decode r = a) {values : List α} {stream part : List β} (h : IsStream R values stream)
    (hpart : part <+: stream) (pad : β) :
    (records size pad part).map decode = values.take (part.length / size) := by
  obtain ⟨rs, hrs, rfl⟩ := h
  have hmap : rs.map decode = values := by
    clear hpart
    induction hrs with
    | nil => rfl
    | cons hr _ ih => rw [List.map_cons, hdecode _ _ hr, ih]
  rw [records_take pad hpart, List.map_take, hmap]

end Records

import Mathlib.Algebra.Order.BigOperators.Group.List
import Mathlib.Data.List.Lex
import Mathlib.Data.Nat.Choose.Basic
import Mathlib.Tactic.Ring
import GenomicsDB.Machine

/-!
# The BGEN probability slots

A layout-2 BGEN genotype block stores, for each sample of ploidy `P` at a site with
`K` alleles, one probability per slot, the last slot left out since the
probabilities sum to one. The processor walks the slots with two enumerators that
hand each slot to a callback, together with an `int`:

* `bgen_enumerate_phased` visits the pairs `(haplotype, allele)`, haplotype outer,
  the last allele left out, and hands over the slot index `++ind`, an `int`;
* `bgen_enumerate_unphased` visits the allele-count vectors `(a_0, …, a_{K-1})` that
  sum to `P` by a recursion on the index, `a_{K-1}` outermost, `a_0` whatever is
  left; the last vector `(0, …, 0, P)` is left out by stopping the outermost loop
  one short. It hands over `ind`, which stays at `-1`.

A run of an enumerator is modelled by the list of its callback's invocations, each
with its vector and its `int`; a callback that changes state is a fold over that list.

The results are, for the unphased recursion, the bridge `enumerateUnphased_eq` from
the recursion with its shared `allele_counts` vector to `countsDesc`, a pure
enumeration of the vectors written highest index first; then what `countsDesc`
enumerates (`mem_countsDesc`), in which order (`countsDesc_pairwise`) and how many
(`length_countsDesc`), assembled in `bgenEnumerateUnphased_spec` for `K ≥ 2`. At
`K = 1` the outermost loop is the leaf, and the vector `(P)` is handed over even when
the last slot is to be dropped (`bgenEnumerateUnphased_one`). For the phased loops,
`bgenEnumeratePhased_eq` is their closed form, and the `k`-th phased call gets `k`
as long as `++ind` stays below `2 ^ 31` (`bgenEnumeratePhased_index`).

The loop counters are `int`s: for `P < 2 ^ 31 - 1` none of them overflows, and the
results about the unphased recursion carry that bound.
-/

namespace GenomicsDB

/-- `bgen_enumerate_phased(ploidy, alleles, callback, drop_last)`: the invocations of
`callback`, in order, with the vector `{i, j}` and the index `++ind`, taken in `int`
(past `2 ^ 31 - 1` calls the source's `++ind` overflows; the model wraps it). -/
def bgenEnumeratePhased (ploidy alleles : ℤ) (dropLast : Bool := true) : List (List ℤ × ℤ) :=
  let limit := alleles - if dropLast then 1 else 0
  ((List.range ploidy.toNat).foldl
    (fun acc (i : ℕ) => (List.range limit.toNat).foldl
      (fun (calls, ind) (j : ℕ) => (calls ++ [([(i : ℤ), (j : ℤ)], toInt32 (ind + 1))], toInt32 (ind + 1)))
      acc)
    (([] : List (List ℤ × ℤ)), (-1 : ℤ))).1

/-- The recursion `enumerate_unphased(used, depth)` of `bgen_enumerate_unphased`, on the
shared vector `allele_counts`: the invocations of `callback` and the vector after it.
At `depth > 0` it sets `allele_counts[depth]` to each `i` from `0` to `limit` and
recurses; at `depth = 0` it sets `allele_counts[0]` to what is left and calls back. -/
def enumerateUnphased (ploidy alleles : ℤ) (dropLast : Bool) (ind : ℤ) :
    ℕ → ℤ → List ℤ → List (List ℤ × ℤ) × List ℤ
  | 0, used, alleleCounts =>
    let alleleCounts := alleleCounts.set 0 (ploidy - used)
    ([(alleleCounts, ind)], alleleCounts)
  | depth + 1, used, alleleCounts =>
    let limit := ploidy - used - if (depth + 1 : ℤ) = alleles - 1 ∧ dropLast then 1 else 0
    (List.range (limit + 1).toNat).foldl
      (fun (calls, alleleCounts) (i : ℕ) =>
        let r := enumerateUnphased ploidy alleles dropLast ind depth (used + i)
          (alleleCounts.set (depth + 1) i)
        (calls ++ r.1, r.2))
      ([], alleleCounts)

/-- `bgen_enumerate_unphased(ploidy, alleles, callback, drop_last)`: the recursion from
`used = 0` at `depth = alleles - 1`, on a vector of `alleles` zeros, with `ind = -1`.
At `alleles ≤ 0` the depth is negative, hence not `0`: the loop's limit is
`ploidy - drop_last`, and when it is negative the loop does not run and nothing is
called back; otherwise the source writes `allele_counts[-1]` and recurses without end,
which is undefined, and the model calls back nothing there either. -/
def bgenEnumerateUnphased (ploidy alleles : ℤ) (dropLast : Bool := true) : List (List ℤ × ℤ) :=
  if alleles ≤ 0 then []
  else (enumerateUnphased ploidy alleles dropLast (-1) (alleles - 1).toNat 0
    (List.replicate alleles.toNat 0)).1

/-! ## The vectors, highest index first -/

/-- The count vectors of indices `depth` down to `0` that sum to `rem`, written highest
index first, in the order of the recursion: `a_depth` from `0` to `rem`, then the rest. -/
def countsDesc : ℕ → ℕ → List (List ℤ)
  | 0, rem => [[(rem : ℤ)]]
  | d + 1, rem => (List.range (rem + 1)).flatMap fun i => (countsDesc d (rem - i)).map ((i : ℤ) :: ·)

/-- The first `n` blocks of `countsDesc (d + 1) rem`: the vectors whose highest count is
below `n`. -/
def countsBlock (n d rem : ℕ) : List (List ℤ) :=
  (List.range n).flatMap fun i => (countsDesc d (rem - i)).map ((i : ℤ) :: ·)

theorem countsDesc_succ (d rem : ℕ) : countsDesc (d + 1) rem = countsBlock (rem + 1) d rem := rfl

/-- The colexicographic order of count vectors: at the highest index where they differ,
the first has the smaller count. -/
def ColexLt (u v : List ℤ) : Prop := List.Lex (· < ·) u.reverse v.reverse

theorem mem_countsDesc {d rem : ℕ} {w : List ℤ} :
    w ∈ countsDesc d rem ↔ w.length = d + 1 ∧ (∀ a ∈ w, 0 ≤ a) ∧ w.sum = rem := by
  induction d generalizing rem w with
  | zero =>
    rw [countsDesc, List.mem_singleton]
    constructor
    · rintro rfl
      exact ⟨rfl, fun a ha => List.mem_singleton.mp ha ▸ Int.natCast_nonneg rem, List.sum_singleton⟩
    · rintro ⟨hl, -, hs⟩
      obtain ⟨a, rfl⟩ := List.length_eq_one.mp hl
      rw [← hs, List.sum_singleton]
  | succ d ih =>
    simp only [countsDesc, List.mem_flatMap, List.mem_range, List.mem_map, ih]
    constructor
    · rintro ⟨i, hi, t, ⟨htl, htn, hts⟩, rfl⟩
      refine ⟨by simp [htl], ?_, ?_⟩
      · simp only [List.mem_cons, forall_eq_or_imp]
        exact ⟨by omega, htn⟩
      · simp only [List.sum_cons, hts]; omega
    · rintro ⟨hl, hn, hs⟩
      cases w with
      | nil => simp at hl
      | cons a t =>
        simp only [List.mem_cons, forall_eq_or_imp] at hn
        have ht : 0 ≤ t.sum := List.sum_nonneg hn.2
        simp only [List.sum_cons] at hs
        refine ⟨a.toNat, by omega, t, ⟨by simpa using hl, hn.2, by omega⟩, ?_⟩
        rw [Int.toNat_of_nonneg hn.1]

/-- One level of the enumeration keeps the order: within a block the highest count is
fixed and the rest ordered, and across blocks the highest counts are. -/
theorem countsBlock_pairwise_of {n d rem : ℕ}
    (h : ∀ r, (countsDesc d r).Pairwise (List.Lex (· < ·))) :
    (countsBlock n d rem).Pairwise (List.Lex (· < ·)) := by
  rw [countsBlock, List.pairwise_flatMap]
  refine ⟨fun i _ => List.pairwise_map.mpr ((h _).imp List.Lex.cons), ?_⟩
  refine (List.pairwise_lt_range n).imp fun hij x hx y hy => ?_
  obtain ⟨_, _, rfl⟩ := List.mem_map.mp hx
  obtain ⟨_, _, rfl⟩ := List.mem_map.mp hy
  exact List.Lex.rel (by exact_mod_cast hij)

theorem countsDesc_pairwise (d rem : ℕ) : (countsDesc d rem).Pairwise (List.Lex (· < ·)) := by
  induction d generalizing rem with
  | zero => exact List.pairwise_singleton _ _
  | succ d ih => exact countsBlock_pairwise_of ih

theorem countsBlock_pairwise (n d rem : ℕ) : (countsBlock n d rem).Pairwise (List.Lex (· < ·)) :=
  countsBlock_pairwise_of (countsDesc_pairwise d)

theorem countsBlock_succ (n d rem : ℕ) :
    countsBlock (n + 1) d rem = countsBlock n d rem ++ (countsDesc d (rem - n)).map ((n : ℤ) :: ·) := by
  simp [countsBlock, List.range_succ]

theorem countsDesc_zero_right (d : ℕ) : countsDesc d 0 = [List.replicate (d + 1) 0] := by
  induction d with
  | zero => rfl
  | succ d ih =>
    simp only [countsDesc_succ, countsBlock, Nat.zero_add, List.range_succ, List.range_zero,
      List.nil_append, List.flatMap_singleton, Nat.sub_zero, ih, List.map_singleton]
    rfl

/-- The last vector of `countsDesc (d + 1) rem` is `(rem, 0, …, 0)`, highest index first. -/
theorem countsDesc_succ_eq_append (d rem : ℕ) :
    countsDesc (d + 1) rem = countsBlock rem d rem ++ [(rem : ℤ) :: List.replicate (d + 1) 0] := by
  rw [countsDesc_succ, countsBlock_succ, Nat.sub_self, countsDesc_zero_right]
  rfl

theorem mem_countsBlock {n d rem : ℕ} {w : List ℤ} :
    w ∈ countsBlock n d rem ↔ ∃ i < n, ∃ t ∈ countsDesc d (rem - i), w = (i : ℤ) :: t := by
  simp only [countsBlock, List.mem_flatMap, List.mem_range, List.mem_map]
  exact exists_congr fun i => and_congr_right fun _ => exists_congr fun t => and_congr_right
    fun _ => eq_comm

/-- The vectors the outermost loop visits when it stops one short of `rem` (`b`) or not:
all of them, but the last when it stops short. -/
theorem mem_countsBlock_top {d rem : ℕ} {b : Bool} {w : List ℤ} :
    w ∈ countsBlock (rem + 1 - if b then 1 else 0) d rem ↔
      w ∈ countsDesc (d + 1) rem ∧ ¬(b = true ∧ w = (rem : ℤ) :: List.replicate (d + 1) 0) := by
  cases b with
  | false => simp [countsDesc_succ]
  | true =>
    simp only [if_true, Nat.add_sub_cancel, countsDesc_succ_eq_append, List.mem_append,
      List.mem_singleton, true_and]
    constructor
    · rintro hw
      refine ⟨.inl hw, fun h => ?_⟩
      obtain ⟨i, hi, t, -, rfl⟩ := mem_countsBlock.mp hw
      have := (List.cons.inj h).1
      omega
    · rintro ⟨hw | hw, hne⟩
      exacts [hw, (hne hw).elim]

/-! ## How many vectors -/

/-- The hockey-stick identity, summed from the top. -/
theorem sum_range_choose_sub (d rem : ℕ) :
    ((List.range (rem + 1)).map fun i => (rem - i + d).choose d).sum = (rem + d + 1).choose (d + 1) := by
  induction rem with
  | zero => simp
  | succ rem ih =>
    rw [List.range_succ_eq_map, List.map_cons, List.sum_cons, List.map_map]
    have h : ((fun i => (rem + 1 - i + d).choose d) ∘ Nat.succ) = fun i => (rem - i + d).choose d := by
      funext i; simp [Nat.succ_sub_succ]
    rw [h, ih, Nat.sub_zero, show rem + d + 1 = rem + 1 + d by omega]
    exact (Nat.choose_succ_succ' _ _).symm

theorem length_countsBlock (n d rem : ℕ) :
    (countsBlock n d rem).length = ((List.range n).map fun i => (countsDesc d (rem - i)).length).sum := by
  simp [countsBlock, List.flatMap, List.length_flatten, Function.comp_def]

/-- There are `C(rem + d, d)` vectors of `d + 1` counts summing to `rem`. -/
theorem length_countsDesc (d rem : ℕ) : (countsDesc d rem).length = (rem + d).choose d := by
  induction d generalizing rem with
  | zero => simp [countsDesc]
  | succ d ih =>
    simp only [countsDesc_succ, length_countsBlock, ih, sum_range_choose_sub]
    rw [Nat.add_assoc]

theorem length_countsBlock_top (d rem : ℕ) (b : Bool) :
    (countsBlock (rem + 1 - if b then 1 else 0) d rem).length =
      (rem + d + 1).choose (d + 1) - if b then 1 else 0 := by
  have h := length_countsDesc (d + 1) rem
  cases b with
  | false => simpa [countsDesc_succ, Nat.add_assoc] using h
  | true =>
    rw [countsDesc_succ_eq_append, List.length_append] at h
    simp only [if_true, Nat.add_sub_cancel, ← Nat.add_assoc] at h ⊢
    simp at h
    omega

/-! ## The recursion enumerates `countsDesc` -/

/-- `allele_counts[n] = a` seen from position `n` on. -/
theorem drop_set_self {l : List ℤ} {n : ℕ} (a : ℤ) (h : n < l.length) :
    (l.set n a).drop n = a :: l.drop (n + 1) := by
  rw [List.set_eq_take_append_cons_drop, if_pos h, List.drop_left' (by rw [List.length_take]; omega)]

/-- A loop whose turn `i` calls back `X i` from any vector the frame `S` allows, and
leaves such a vector, calls back the `X i` in order. -/
theorem foldl_frame {S : List ℤ → Prop} {F : ℕ → List ℤ → List (List ℤ × ℤ) × List ℤ}
    {X : ℕ → List (List ℤ × ℤ)} :
    ∀ (is : List ℕ), (∀ i ∈ is, ∀ c, S c → (F i c).1 = X i ∧ S (F i c).2) →
      ∀ acc c, S c →
        (is.foldl (fun (calls, c) i => (calls ++ (F i c).1, (F i c).2)) (acc, c)).1 =
            acc ++ is.flatMap X ∧
          S (is.foldl (fun (calls, c) i => (calls ++ (F i c).1, (F i c).2)) (acc, c)).2
  | [], _, acc, c, hc => ⟨by simp, hc⟩
  | i :: is, h, acc, c, hc => by
    obtain ⟨h₁, h₂⟩ := h i (List.mem_cons_self _ _) c hc
    have := foldl_frame is (fun j hj => h j (List.mem_cons_of_mem _ hj)) (acc ++ (F i c).1) _ h₂
    simpa [h₁, List.append_assoc] using this

/-- What the recursion at `depth` does, from any `used ≤ p` and on any vector longer than
`depth`: it calls back the vectors of `countsDesc depth (p - used)`, each reversed into
index order in front of the entries above `depth`, and leaves the vector's length and
its entries above `depth` as they were. -/
def Enumerates (p : ℕ) (alleles : ℤ) (dropLast : Bool) (ind : ℤ) (d : ℕ) : Prop :=
  ∀ (used : ℕ) (c : List ℤ), used ≤ p → d < c.length →
    (enumerateUnphased p alleles dropLast ind d used c).1 =
        (countsDesc d (p - used)).map (fun w => (w.reverse ++ c.drop (d + 1), ind)) ∧
      (enumerateUnphased p alleles dropLast ind d used c).2.length = c.length ∧
      (enumerateUnphased p alleles dropLast ind d used c).2.drop (d + 1) = c.drop (d + 1)

section Levels

variable {p : ℕ} {alleles : ℤ} {dropLast : Bool} {ind : ℤ} {d : ℕ}

/-- One turn of the loop at `depth + 1`: set `allele_counts[depth + 1] = i` and recurse.
If the recursion at `depth` enumerates `countsDesc`, the turn calls back the vectors
with `a_{depth+1} = i`, and keeps the vector's length and its entries above. -/
theorem turn_eq (ih : Enumerates p alleles dropLast ind d) {used : ℕ} {c : List ℤ}
    (hc : d + 1 < c.length) {i : ℕ} (hi : used + i ≤ p) {c' : List ℤ}
    (hc' : c'.length = c.length ∧ c'.drop (d + 2) = c.drop (d + 2)) :
    let r := enumerateUnphased p alleles dropLast ind d (used + i) (c'.set (d + 1) i)
    r.1 = (countsDesc d (p - (used + i))).map
        (fun w => (((i : ℤ) :: w).reverse ++ c.drop (d + 2), ind)) ∧
      r.2.length = c.length ∧ r.2.drop (d + 2) = c.drop (d + 2) := by
  have hset : (c'.set (d + 1) i).drop (d + 1) = (i : ℤ) :: c.drop (d + 2) := by
    rw [drop_set_self _ (by omega), hc'.2]
  obtain ⟨h₁, h₂, h₃⟩ := ih (used + i) (c'.set (d + 1) i) hi (by rw [List.length_set]; omega)
  push_cast at h₁ h₂ h₃
  refine ⟨by simp [h₁, hset], by simp [h₂, hc'.1], ?_⟩
  rw [← List.drop_drop 1 (d + 1), h₃, hset, List.drop_one, List.tail_cons]

/-- One level of the recursion, at `depth + 1`, whose loop runs `n` turns: it calls back
the vectors of the first `n` blocks, and keeps the entries above `depth + 1`. -/
theorem level_eq (ih : Enumerates p alleles dropLast ind d) {used n : ℕ} {c : List ℤ}
    (hc : d + 1 < c.length)
    (hlim : ((p : ℤ) - used - (if ((d : ℤ) + 1) = alleles - 1 ∧ dropLast then 1 else 0) + 1).toNat = n)
    (hn : used + n ≤ p + 1) :
    (enumerateUnphased p alleles dropLast ind (d + 1) used c).1 =
        (countsBlock n d (p - used)).map (fun w => (w.reverse ++ c.drop (d + 2), ind)) ∧
      (enumerateUnphased p alleles dropLast ind (d + 1) used c).2.length = c.length ∧
      (enumerateUnphased p alleles dropLast ind (d + 1) used c).2.drop (d + 2) = c.drop (d + 2) := by
  have hloop := @foldl_frame (fun c' => c'.length = c.length ∧ c'.drop (d + 2) = c.drop (d + 2))
    (fun i c' => enumerateUnphased p alleles dropLast ind d ((used : ℤ) + (i : ℤ)) (c'.set (d + 1) i))
    (fun i => (countsDesc d (p - (used + i))).map
      (fun w => (((i : ℤ) :: w).reverse ++ c.drop (d + 2), ind)))
    (List.range n) (fun i hi c' hc' => turn_eq ih hc (by have := List.mem_range.mp hi; omega) hc')
    [] c ⟨rfl, rfl⟩
  rw [enumerateUnphased, hlim]
  refine ⟨hloop.1.trans ?_, hloop.2⟩
  rw [countsBlock, List.map_flatMap]
  simp [Nat.sub_sub, Function.comp_def]

/-- **The bridge.** Below the outermost level, the recursion at `depth` enumerates
`countsDesc`. -/
theorem enumerateUnphased_eq (d : ℕ) (ha : (d : ℤ) < alleles - 1) :
    Enumerates p alleles dropLast ind d := by
  induction d with
  | zero =>
    intro used c hu hc
    obtain ⟨a, c, rfl⟩ := List.exists_cons_of_length_pos hc
    refine ⟨?_, by simp [enumerateUnphased], by simp [enumerateUnphased]⟩
    simp only [enumerateUnphased, countsDesc, List.set_cons_zero, List.map_singleton,
      List.reverse_singleton, List.singleton_append, List.drop_one, List.tail_cons]
    push_cast [Nat.cast_sub hu]
    rfl
  | succ d ih =>
    intro used c hu hc
    push_cast at ha
    have hlim : ((p : ℤ) - used - (if ((d : ℤ) + 1) = alleles - 1 ∧ dropLast then 1 else 0) + 1).toNat =
        p - used + 1 := by
      rw [if_neg fun h => by have := h.1; omega]
      omega
    rw [countsDesc_succ]
    exact level_eq (ih (by omega)) hc hlim (by omega)

end Levels

/-- **The unphased enumerator, for `K ≥ 2` alleles.** It calls back, with `-1`, the
vectors of the first `P + 1` blocks (`P` when the last slot is dropped), reversed into
index order. -/
theorem bgenEnumerateUnphased_eq (p k : ℕ) (dropLast : Bool) :
    bgenEnumerateUnphased p (k + 2) dropLast =
      (countsBlock (p + 1 - if dropLast then 1 else 0) k p).map (fun w => (w.reverse, -1)) := by
  have hd : ((k : ℤ) + 2 - 1).toNat = k + 1 := by omega
  have hl : ((k : ℤ) + 2).toNat = k + 2 := by omega
  have hlim : ((p : ℤ) - (0 : ℕ) - (if ((k : ℤ) + 1) = (k : ℤ) + 2 - 1 ∧ dropLast then 1 else 0) +
      1).toNat = p + 1 - if dropLast then 1 else 0 := by
    have hk : (k : ℤ) + 1 = (k : ℤ) + 2 - 1 := by omega
    cases dropLast
    · simp only [hk, true_and, Bool.false_eq_true, if_false]; omega
    · simp only [hk, true_and, if_true]; omega
  have h := (@level_eq p ((k : ℤ) + 2) dropLast (-1) k (enumerateUnphased_eq k (by omega)) 0 _
    (List.replicate (k + 2) 0) (by simp) hlim (by split <;> omega)).1
  rw [bgenEnumerateUnphased, if_neg (by omega), hd, hl]
  simpa using h

/-- **At `K = 1` nothing is dropped.** The outermost level is the leaf: whatever
`drop_last` says, the vector `(P)` is handed over. -/
theorem bgenEnumerateUnphased_one (ploidy : ℤ) (dropLast : Bool) :
    bgenEnumerateUnphased ploidy 1 dropLast = [([ploidy], -1)] := by
  simp [bgenEnumerateUnphased, enumerateUnphased]

/-- The number of unphased calls, for `K ≥ 2`. -/
theorem length_bgenEnumerateUnphased (P K : ℕ) (dropLast : Bool) (hK : 2 ≤ K) :
    (bgenEnumerateUnphased P K dropLast).length =
      (P + K - 1).choose (K - 1) - if dropLast then 1 else 0 := by
  obtain ⟨k, rfl⟩ : ∃ k, K = k + 2 := ⟨K - 2, by omega⟩
  rw [Nat.cast_add, Nat.cast_two, bgenEnumerateUnphased_eq, List.length_map, length_countsBlock_top]
  congr 2

/-- **The unphased slot order, for `K ≥ 2`.** The callback sees each vector of `K`
non-negative counts summing to `P` exactly once, but `(0, …, 0, P)` when the last slot
is dropped, in strictly increasing colexicographic order: `C(P + K - 1, K - 1)` calls,
one fewer when the last slot is dropped. `P` is below `2 ^ 31 - 1`, where no loop
counter `i <= limit` of the recursion overflows. -/
theorem bgenEnumerateUnphased_spec (P K : ℕ) (dropLast : Bool) (hK : 2 ≤ K) (_hP : P < 2 ^ 31 - 1) :
    (∀ v, v ∈ (bgenEnumerateUnphased P K dropLast).map Prod.fst ↔ v.length = K ∧ (∀ a ∈ v, 0 ≤ a) ∧
        v.sum = P ∧ ¬(dropLast = true ∧ v = List.replicate (K - 1) 0 ++ [(P : ℤ)])) ∧
      ((bgenEnumerateUnphased P K dropLast).map Prod.fst).Pairwise ColexLt ∧
      (bgenEnumerateUnphased P K dropLast).length =
        (P + K - 1).choose (K - 1) - if dropLast then 1 else 0 := by
  refine ⟨fun v => ?_, ?_, length_bgenEnumerateUnphased P K dropLast hK⟩
  all_goals
    obtain ⟨k, rfl⟩ : ∃ k, K = k + 2 := ⟨K - 2, by omega⟩
    rw [Nat.cast_add, Nat.cast_two, bgenEnumerateUnphased_eq, List.map_map]
  · -- membership: through `reverse`, the vectors of `countsDesc`
    have hrev : v.reverse = (P : ℤ) :: List.replicate (k + 1) 0 ↔
        v = List.replicate (k + 1) 0 ++ [(P : ℤ)] := by
      rw [List.reverse_eq_iff]; simp
    simp only [List.mem_map, Function.comp_def]
    constructor
    · rintro ⟨w, hw, rfl⟩
      obtain ⟨hm, hne⟩ := mem_countsBlock_top.mp hw
      obtain ⟨hl, hn, hs⟩ := mem_countsDesc.mp hm
      refine ⟨by simp [hl], by simpa using hn, by simpa [List.sum_reverse] using hs, ?_⟩
      simpa [← hrev] using hne
    · rintro ⟨hl, hn, hs, hne⟩
      refine ⟨v.reverse, mem_countsBlock_top.mpr ⟨mem_countsDesc.mpr ⟨by simp [hl], by simpa using hn,
        by simpa [List.sum_reverse] using hs⟩, by simpa [hrev] using hne⟩, by simp⟩
  · -- order: `ColexLt` of reversed vectors is `Lex` of the vectors
    simpa [List.pairwise_map, ColexLt, Function.comp_def] using countsBlock_pairwise _ k P

theorem bgenEnumerateUnphased_spec_diploid_triallelic : (2 ≤ 3 ∧ 2 < 2 ^ 31 - 1) ∧
    (∀ v, v ∈ (bgenEnumerateUnphased 2 3 true).map Prod.fst ↔ v.length = 3 ∧ (∀ a ∈ v, 0 ≤ a) ∧
        v.sum = (2 : ℕ) ∧ ¬(true = true ∧ v = List.replicate (3 - 1) 0 ++ [((2 : ℕ) : ℤ)])) ∧
      ((bgenEnumerateUnphased 2 3 true).map Prod.fst).Pairwise ColexLt ∧
      (bgenEnumerateUnphased 2 3 true).length = (2 + 3 - 1).choose (3 - 1) - if true then 1 else 0 :=
  ⟨⟨by decide, by decide⟩, bgenEnumerateUnphased_spec 2 3 true (by decide) (by decide)⟩

/-- The vector `(0, …, 0, P)` and the count at `K = 1`, `P = 2` with the last slot
dropped: the call is made, where `C(P + K - 1, K - 1) - 1 = 0` calls are due. -/
theorem bgenEnumerateUnphased_keeps_last :
    (bgenEnumerateUnphased 2 1 true).map Prod.fst = [List.replicate 0 0 ++ [2]] ∧
      (2 + 1 - 1).choose (1 - 1) - 1 = 0 := by
  rw [bgenEnumerateUnphased_one]
  decide

/-! ## The phased enumerator -/

/-- The inner loop of `bgen_enumerate_phased`, over the alleles of haplotype `i`, from an
index that is the `int` of `m`. -/
theorem phased_inner (i L : ℕ) (calls : List (List ℤ × ℤ)) (m : ℤ) :
    (List.range L).foldl
        (fun (calls, ind) (j : ℕ) => (calls ++ [([(i : ℤ), (j : ℤ)], toInt32 (ind + 1))], toInt32 (ind + 1)))
        (calls, toInt32 m) =
      (calls ++ (List.range L).map fun (j : ℕ) => ([(i : ℤ), (j : ℤ)], toInt32 (m + 1 + j)),
        toInt32 (m + L)) := by
  induction L with
  | zero => simp
  | succ L ih =>
    rw [List.range_succ, List.foldl_append, ih]
    simp only [List.foldl_cons, List.foldl_nil, toInt32_toInt32_add, List.map_append, List.map_singleton,
      List.append_assoc, Nat.cast_succ]
    rw [← add_assoc, show m + (L : ℤ) + 1 = m + 1 + L by ring]

/-- **The phased slots.** `bgen_enumerate_phased` calls back the pairs `(i, j)`,
haplotype `i` outer, allele `j` below `L = alleles - drop_last`, with the index
`i * L + j` in `int`. -/
theorem bgenEnumeratePhased_eq (ploidy alleles : ℤ) (dropLast : Bool) :
    let L := (alleles - if dropLast then 1 else 0).toNat
    bgenEnumeratePhased ploidy alleles dropLast =
      (List.range ploidy.toNat).flatMap fun (i : ℕ) =>
        (List.range L).map fun (j : ℕ) => ([(i : ℤ), (j : ℤ)], toInt32 ((i * L + j : ℕ) : ℤ)) := by
  intro L
  suffices ∀ P, (List.range P).foldl (fun acc (i : ℕ) => (List.range L).foldl
      (fun (calls, ind) (j : ℕ) => (calls ++ [([(i : ℤ), (j : ℤ)], toInt32 (ind + 1))], toInt32 (ind + 1)))
      acc) (([] : List (List ℤ × ℤ)), (-1 : ℤ)) =
      ((List.range P).flatMap fun (i : ℕ) => (List.range L).map fun (j : ℕ) => ([(i : ℤ), (j : ℤ)],
        toInt32 ((i * L + j : ℕ) : ℤ)), toInt32 (((P * L : ℕ) : ℤ) - 1)) from
    congrArg Prod.fst (this ploidy.toNat)
  intro P
  induction P with
  | zero =>
    simp only [List.range_zero, List.foldl_nil, List.flatMap_nil, Nat.zero_mul, Nat.cast_zero, zero_sub]
    exact Prod.ext rfl (by decide)
  | succ P ih =>
    rw [List.range_succ, List.foldl_append, ih, List.foldl_cons, List.foldl_nil, phased_inner]
    simp only [List.flatMap_append, List.flatMap_cons, List.flatMap_nil, List.append_nil]
    push_cast
    rw [show (P : ℤ) * L - 1 + 1 = P * L by ring, show (P : ℤ) * L - 1 + L = (P + 1) * L - 1 by ring]

/-- The number of phased calls. -/
theorem length_bgenEnumeratePhased (ploidy alleles : ℤ) (dropLast : Bool) :
    (bgenEnumeratePhased ploidy alleles dropLast).length =
      ploidy.toNat * (alleles - if dropLast then 1 else 0).toNat := by
  rw [bgenEnumeratePhased_eq]
  simp [List.length_flatMap, Function.comp_def]

theorem flatMap_range_mul (P L : ℕ) :
    ((List.range P).flatMap fun (i : ℕ) => (List.range L).map fun (j : ℕ) => i * L + j) =
      List.range (P * L) := by
  induction P with
  | zero => simp
  | succ P ih => rw [List.range_succ, List.flatMap_append, ih, Nat.succ_mul, List.range_add]; simp

/-- **The phased slot index.** As long as `++ind` does not pass `2 ^ 31 - 1`, that is
for at most `2 ^ 31` calls, the `k`-th call of `bgen_enumerate_phased` (from `0`)
receives `k`. -/
theorem bgenEnumeratePhased_index (ploidy alleles : ℤ) (dropLast : Bool)
    (h : ploidy.toNat * (alleles - if dropLast then 1 else 0).toNat ≤ 2 ^ 31) :
    (bgenEnumeratePhased ploidy alleles dropLast).map Prod.snd =
      (List.range (ploidy.toNat * (alleles - if dropLast then 1 else 0).toNat)).map (↑) := by
  -- the indices are the `int`s of `0, 1, …`
  have hint : (bgenEnumeratePhased ploidy alleles dropLast).map Prod.snd =
      (List.range (ploidy.toNat * (alleles - if dropLast then 1 else 0).toNat)).map
        fun (k : ℕ) => toInt32 (k : ℤ) := by
    rw [bgenEnumeratePhased_eq, ← flatMap_range_mul]
    simp only [List.map_flatMap, List.map_map, Function.comp_def]
  rw [hint]
  refine List.map_congr_left fun k hk => @toInt32_of_lt (k : ℤ) (by omega) ?_
  exact_mod_cast lt_of_lt_of_le (List.mem_range.mp hk) h

theorem bgenEnumeratePhased_index_diploid_triallelic :
    (2 : ℤ).toNat * ((3 : ℤ) - if true then 1 else 0).toNat ≤ 2 ^ 31 ∧
      (bgenEnumeratePhased 2 3 true).map Prod.snd =
        (List.range ((2 : ℤ).toNat * ((3 : ℤ) - if true then 1 else 0).toNat)).map (↑) :=
  ⟨by decide, bgenEnumeratePhased_index 2 3 true (by decide)⟩

/-- At a diploid biallelic site the phased enumerator hands its two calls `0` and `1`,
the unphased one `-1` both times. -/
theorem bgen_enumerators_slot_index :
    (bgenEnumeratePhased 2 2).map Prod.snd = [0, 1] ∧
      (bgenEnumerateUnphased 2 2).map Prod.snd = [-1, -1] :=
  ⟨by decide, by decide⟩

end GenomicsDB

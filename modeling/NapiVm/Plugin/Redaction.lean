import Mathlib.Data.List.Sort
import NapiVm.Lib.Replace

/-!
# Secrets in the log

What a plugin writes is read in pieces, and every secret in it is replaced before it goes into
the log.  The end of what has been read is held back, in case a secret goes on in the next piece.
The longest secrets come first.

* `drain` — what is handed to the log.
* `ChunkFree`, `Hides` — what the log should be.
-/

namespace NapiVm.Plugin

open List

/-- Bytes, of a secret or of the stream. -/
abbrev Bytes := List UInt8

/-- `b"[redacted]"`. -/
def redacted : Bytes := [91, 114, 101, 100, 97, 99, 116, 101, 100, 93]

/-- `Vec::dedup`. -/
def dedup : List Bytes → List Bytes
  | a :: b :: rest => if a = b then dedup (b :: rest) else a :: dedup (b :: rest)
  | l => l

/-- The longest first, and one of several that are the same and beside each other. -/
def byLength (secrets : List Bytes) : List Bytes :=
  dedup (secrets.insertionSort fun a b => b.length ≤ a.length)

/-- How much is held back. -/
def keep (secrets : List Bytes) : Nat := ((secrets.map List.length).max?).getD 1 - 1

/-- One pass over what has been read. -/
def redact (secrets : List Bytes) (pending : Bytes) : Bytes :=
  secrets.foldl (fun pending secret =>
    if secret = [] then pending else replaceAll redacted secret pending) pending

/-- `drain_logs`, from what is pending; a read of nothing is the end. -/
def drainFrom (secrets : List Bytes) : Bytes → List Bytes → Bytes
  | pending, [] => redact secrets pending
  | pending, read :: reads =>
    let pending := redact secrets (pending ++ read)
    if read = [] then pending
    else
      let emit := pending.length - keep secrets
      pending.take emit ++ drainFrom secrets (pending.drop emit) reads

/-- The slices that `drain_logs` hands to the log, one after the other. -/
def drain (secrets : List Bytes) (reads : List Bytes) : Bytes :=
  drainFrom (byLength secrets) [] reads

/-- It makes no difference how a stream is cut into reads. -/
def ChunkFree (secrets : List Bytes) : Prop :=
  ∀ reads reads', [] ∉ reads → [] ∉ reads' → reads.flatten = reads'.flatten →
    drain secrets reads = drain secrets reads'

/-- No secret is left, if none shares a byte with what it is replaced by. -/
def Hides (secrets : List Bytes) : Prop :=
  (∀ secret ∈ secrets, ∀ b ∈ secret, b ∉ redacted) → ∀ reads, [] ∉ reads →
    ∀ secret ∈ secrets, ¬ secret <:+: drain secrets reads

/-- No secret overlaps what it is replaced by, and none can end in the middle of one that comes
before it. -/
def Separate (secrets : List Bytes) : Prop :=
  (∀ secret ∈ secrets, Apart redacted secret) ∧ Ordered (byLength secrets)

variable {secrets reads : List Bytes} {pending : Bytes}

/-! ## The order of the secrets -/

theorem dedup_sublist (l : List Bytes) : (dedup l).Sublist l := by
  induction l using dedup.induct with
  | case1 b rest ih =>
    rw [dedup, if_pos rfl]
    exact ih.trans (sublist_cons_self _ _)
  | case2 a b rest hne ih =>
    rw [dedup, if_neg hne]
    exact ih.cons_cons a
  | case3 l h =>
    rw [dedup]
    exact h

theorem mem_dedup {l : List Bytes} {secret : Bytes} : secret ∈ dedup l ↔ secret ∈ l := by
  refine ⟨fun h => (dedup_sublist l).subset h, fun h => ?_⟩
  induction l using dedup.induct with
  | case1 b rest ih =>
    rw [dedup, if_pos rfl]
    refine ih ?_
    rcases mem_cons.1 h with rfl | h
    · exact mem_cons_self
    · exact h
  | case2 a b rest hne ih =>
    rw [dedup, if_neg hne]
    exact (mem_cons.1 h).elim (fun h => h ▸ mem_cons_self)
      fun h => mem_cons_of_mem _ (ih h)
  | case3 l hl =>
    rw [dedup]
    · exact h
    · exact hl

theorem mem_byLength {secret : Bytes} : secret ∈ byLength secrets ↔ secret ∈ secrets := by
  rw [byLength, mem_dedup, mem_insertionSort]

theorem sorted_byLength (secrets : List Bytes) :
    (byLength secrets).Pairwise fun a b => b.length ≤ a.length := by
  have : Std.Total fun a b : Bytes => b.length ≤ a.length :=
    ⟨fun a b => Nat.le_total b.length a.length⟩
  have : IsTrans Bytes fun a b => b.length ≤ a.length := ⟨fun _ _ _ h h' => h'.trans h⟩
  exact (pairwise_insertionSort _ secrets).sublist (dedup_sublist _)

theorem length_le_keep {secret : Bytes} (h : secret ∈ secrets) :
    secret.length ≤ keep secrets + 1 := by
  have hmem : secret.length ∈ secrets.map length := mem_map_of_mem h
  cases hmax : (secrets.map length).max? with
  | none =>
    rw [max?_eq_none_iff.1 hmax] at hmem
    cases hmem
  | some n =>
    have hle := (max?_eq_some_iff.1 hmax).2 _ hmem
    rw [keep, hmax, Option.getD_some]
    omega

/-! ## Passes -/

theorem redact_eq (hne : ∀ secret ∈ secrets, secret ≠ []) (pending : Bytes) :
    redact secrets pending = replaceEach redacted secrets pending := by
  induction secrets generalizing pending with
  | nil => rfl
  | cons secret rest ih =>
    have hrest := ih (fun s hs => hne s (mem_cons_of_mem _ hs))
      (replaceAll redacted secret pending)
    rw [replaceEach_cons, ← hrest, redact, foldl_cons, if_neg (hne _ mem_cons_self)]
    rfl

/-- What is emitted after a pass, and what is held back. -/
theorem emit_or (secrets : List Bytes) (passed : Bytes) :
    passed.take (passed.length - keep secrets) = [] ∨ ∀ secret ∈ secrets,
      secret.length ≤ (passed.drop (passed.length - keep secrets)).length + 1 := by
  by_cases hshort : passed.length ≤ keep secrets
  · left
    rw [Nat.sub_eq_zero_of_le hshort, take_zero]
  · right
    intro secret hsecret
    have hlength := length_le_keep hsecret
    rw [length_drop]
    omega

section Apart

variable (hapart : ∀ secret ∈ secrets, Apart redacted secret)

include hapart

theorem redact_eq_of_apart (pending : Bytes) :
    redact secrets pending = replaceEach redacted secrets pending :=
  redact_eq (fun secret hsecret => (hapart secret hsecret).ne_nil) pending

/-- No secret begins in what is emitted. -/
theorem clear_emit (pending z : Bytes) :
    let passed := replaceEach redacted secrets pending
    let emit := passed.length - keep secrets
    Clear secrets (passed.take emit) (passed.drop emit ++ z) := by
  intro passed emit
  refine clear_of_not_infix (fun secret hsecret => ?_) (emit_or secrets passed) z
  rw [take_append_drop]
  exact not_infix_replaceEach hapart hsecret

/-- A pass goes on behind what has been emitted. -/
theorem emit_append (pending z : Bytes) :
    let passed := replaceEach redacted secrets pending
    let emit := passed.length - keep secrets
    passed.take emit ++ replaceEach redacted secrets (passed.drop emit ++ z) =
      replaceEach redacted secrets (passed ++ z) := by
  intro passed emit
  rw [← replaceEach_clear hapart (clear_emit hapart pending z), ← append_assoc, take_append_drop]

/-- One read. -/
theorem drainFrom_cons (pending : Bytes) {read : Bytes} (hread : read ≠ []) :
    let passed := replaceEach redacted secrets (pending ++ read)
    let emit := passed.length - keep secrets
    drainFrom secrets pending (read :: reads) =
      passed.take emit ++ drainFrom secrets (passed.drop emit) reads := by
  intro passed emit
  rw [drainFrom]
  simp only [redact_eq_of_apart hapart, if_neg hread]
  rfl

theorem drainFrom_nil (pending : Bytes) :
    drainFrom secrets pending [] = replaceEach redacted secrets pending :=
  redact_eq_of_apart hapart pending

/-! ## How the stream is cut -/

/-- Ordered secrets are replaced as in one pass over the whole stream. -/
theorem drainFrom_eq (hordered : Ordered secrets) (hreads : [] ∉ reads) :
    drainFrom secrets pending reads = replaceEach redacted secrets (pending ++ reads.flatten) := by
  induction reads generalizing pending with
  | nil => rw [drainFrom_nil hapart, flatten_nil, append_nil]
  | cons read rest ih =>
    rw [mem_cons, not_or] at hreads
    rw [drainFrom_cons hapart pending (Ne.symm hreads.1), ih hreads.2,
      emit_append hapart, ← replaceEach_absorb hapart hordered, flatten_cons,
      append_assoc]

/-- One read and the end. -/
theorem drainFrom_one (pending : Bytes) {read : Bytes} (hread : read ≠ []) :
    drainFrom secrets pending [read] = replaceEach redacted secrets (pending ++ read) := by
  have hemit := emit_append hapart (pending ++ read) []
  rw [drainFrom_cons hapart pending hread, drainFrom_nil hapart]
  simp only [append_nil] at hemit
  rw [hemit, replaceEach_idem hapart]

/-- Two reads. -/
theorem drainFrom_two {x c : Bytes} (hx : x ≠ []) (hc : c ≠ []) :
    drainFrom secrets [] [x, c] =
      replaceEach redacted secrets (replaceEach redacted secrets x ++ c) := by
  rw [drainFrom_cons hapart [] hx, drainFrom_one hapart _ hc, emit_append hapart, nil_append]

/-! ## What is left -/

/-- No secret is left, whatever the order. -/
theorem not_infix_drainFrom {emitted : Bytes} (hclear : ∀ z, Clear secrets emitted (pending ++ z))
    (hreads : [] ∉ reads) {secret : Bytes} (hsecret : secret ∈ secrets) :
    ¬ secret <:+: emitted ++ drainFrom secrets pending reads := by
  induction reads generalizing emitted pending with
  | nil =>
    rw [drainFrom_nil hapart]
    intro hin
    have hpassed := (hclear []).replaceEach hapart hapart
    rw [append_nil] at hpassed
    exact not_infix_replaceEach hapart hsecret
      (hpassed.behind hsecret (hapart secret hsecret).ne_nil hin)
  | cons read rest ih =>
    rw [mem_cons, not_or] at hreads
    rw [drainFrom_cons hapart pending (Ne.symm hreads.1), ← append_assoc]
    refine ih (fun z => ?_) hreads.2
    refine Clear.append ?_ (clear_emit hapart (pending ++ read) z)
    have hpassed : Clear secrets emitted (replaceEach redacted secrets (pending ++ read) ++ z) := by
      refine Clear.replaceEach hapart hapart ?_
      rw [append_assoc]
      exact hclear (read ++ z)
    rwa [← append_assoc, take_append_drop]

end Apart

/-! ## Main results -/

/-- A secret that shares no byte with its replacement does not overlap it. -/
theorem apart_of_disjoint {secret : Bytes} (hne : secret ≠ [])
    (h : ∀ b ∈ secret, b ∉ redacted) : Apart redacted secret where
  notIn hin := by
    obtain ⟨b, hb⟩ := exists_mem_of_ne_nil secret hne
    exact h b hb (hin.subset hb)
  notAround hin := h 91 (hin.subset mem_cons_self) mem_cons_self
  notBefore v w hs _ hw hstarts := by
    obtain ⟨b, hb⟩ := exists_mem_of_ne_nil w hw
    exact h b (by rw [hs]; exact mem_append_right _ hb) (hstarts.subset hb)
  notBehind v w hs hv _ hends := by
    obtain ⟨b, hb⟩ := exists_mem_of_ne_nil v hv
    exact h b (by rw [hs]; exact mem_append_left _ hb) (hends.subset hb)

/-- No secret is left in the log. -/
theorem hides (hne : ∀ secret ∈ secrets, secret ≠ []) : Hides secrets := by
  intro hdisjoint reads hreads secret hsecret
  have hapart : ∀ s ∈ byLength secrets, Apart redacted s := fun s hs =>
    apart_of_disjoint (hne s (mem_byLength.1 hs)) (hdisjoint s (mem_byLength.1 hs))
  have hstart : ∀ z, Clear (byLength secrets) [] ([] ++ z) := by
    intro z s _ o₁ o₂ ho hne _
    exact hne (append_eq_nil_iff.1 ho.symm).2
  exact not_infix_drainFrom hapart hstart hreads (mem_byLength.2 hsecret)

theorem chunkFree_of_separate (h : Separate secrets) : ChunkFree secrets := by
  intro reads reads' hreads hreads' hsame
  have hapart : ∀ s ∈ byLength secrets, Apart redacted s := fun s hs => h.1 s (mem_byLength.1 hs)
  rw [drain, drain, drainFrom_eq hapart h.2 hreads, drainFrom_eq hapart h.2 hreads', hsame]

/-- Secrets of one byte are replaced byte by byte. -/
theorem redact_append (h : ∀ secret ∈ secrets, secret.length = 1) (x y : Bytes) :
    redact secrets (x ++ y) = redact secrets x ++ redact secrets y := by
  have hne : ∀ secret ∈ secrets, secret ≠ [] := by
    rintro secret hsecret rfl
    cases h _ hsecret
  rw [redact_eq hne, redact_eq hne, redact_eq hne]
  induction secrets generalizing x y with
  | nil => rfl
  | cons secret rest ih =>
    obtain ⟨a, rfl⟩ := length_eq_one_iff.1 (h secret mem_cons_self)
    rw [replaceEach_cons, replaceAll_singleton_append]
    exact ih (fun s hs => h s (mem_cons_of_mem _ hs)) _ _
      fun s hs => hne s (mem_cons_of_mem _ hs)

theorem chunkFree_of_bytes (h : ∀ secret ∈ secrets, secret.length = 1) : ChunkFree secrets := by
  have hone : ∀ secret ∈ byLength secrets, secret.length = 1 :=
    fun secret hsecret => h secret (mem_byLength.1 hsecret)
  have hkeep : keep (byLength secrets) = 0 := by
    cases hmax : ((byLength secrets).map length).max? with
    | none => rw [keep, hmax, Option.getD_none]
    | some n =>
      obtain ⟨secret, hsecret, rfl⟩ := mem_map.1 (max?_eq_some_iff.1 hmax).1
      rw [keep, hmax, Option.getD_some, hone secret hsecret]
  have hdrain : ∀ reads, [] ∉ reads →
      drainFrom (byLength secrets) [] reads = redact (byLength secrets) reads.flatten := by
    intro reads hreads
    induction reads with
    | nil => rfl
    | cons read rest ih =>
      rw [mem_cons, not_or] at hreads
      simp only [drainFrom, if_neg (Ne.symm hreads.1), hkeep, Nat.sub_zero, take_length,
        drop_length, nil_append, flatten_cons]
      rw [ih hreads.2, redact_append hone]
  intro reads reads' hreads hreads' hsame
  rw [drain, drain, hdrain reads hreads, hdrain reads' hreads', hsame]

theorem redacted_border (t v : Bytes) (h : redacted = t ++ v) (ht : t ≠ []) (hv : v ≠ []) :
    ¬ v <+: redacted := by
  have hdrop : v = redacted.drop t.length := by rw [h, drop_left]
  have hlength := congrArg length h
  have hpos := length_pos_iff.2 ht
  have hpos' := length_pos_iff.2 hv
  have hall : ∀ k < 10, k ≠ 0 → ¬ redacted.drop k <+: redacted := by decide
  rw [length_append] at hlength
  change 10 = _ at hlength
  rw [hdrop]
  exact hall t.length (by omega) (by omega)

/-- Secrets that can be read in any pieces are ordered. -/
theorem separate_of_chunkFree (hapart : ∀ secret ∈ secrets, Apart redacted secret)
    (h : ChunkFree secrets) : Separate secrets := by
  have hapart' : ∀ s ∈ byLength secrets, Apart redacted s :=
    fun s hs => hapart s (mem_byLength.1 hs)
  refine ⟨hapart, ordered_of_absorb hapart' (sorted_byLength secrets) (by decide) ?_
    redacted_border⟩
  intro x c hx hc
  have hxc : x ++ c ≠ [] := fun hnil => hx (append_eq_nil_iff.1 hnil).1
  have hsame := h [x ++ c] [x, c] (by simpa using hxc.symm) (by simp [Ne.symm hx, Ne.symm hc])
    (by simp)
  rwa [drain, drain, drainFrom_one hapart' [] hxc, drainFrom_two hapart' hx hc, nil_append] at hsame

end NapiVm.Plugin

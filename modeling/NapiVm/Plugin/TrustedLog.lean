import NapiVm.Lib.Scan
import NapiVm.Plugin.Redaction

/-!
# The log of the trusted host

`TrustedPluginHost.log` is called with every chunk that a plugin writes, and once more at the end
of each of its two streams.  It looks for secrets, and holds back what may be the start of one.

* `Redaction.log` — one call, up to where the output is cut to the limit of the log.
* `log_scan` — what the calls for a stream come to.
-/

namespace NapiVm.Plugin.Trusted

open List

/-! ## Secrets -/

/-- A secret that is not empty. -/
abbrev Secret := {secret : Bytes // secret ≠ []}

theorem Secret.length_pos (secret : Secret) : 0 < secret.val.length :=
  length_pos_iff.2 secret.property

/-- `.sort((a, b) => b.length - a.length)`. -/
def longestFirst (secrets : List Secret) : List Secret :=
  secrets.insertionSort fun a b => b.val.length ≤ a.val.length

theorem mem_longestFirst {secrets : List Secret} {secret : Secret} :
    secret ∈ longestFirst secrets ↔ secret ∈ secrets := mem_insertionSort _

theorem pairwise_longestFirst (secrets : List Secret) :
    (longestFirst secrets).Pairwise fun a b => b.val.length ≤ a.val.length := by
  have : Std.Total fun a b : Secret => b.val.length ≤ a.val.length :=
    ⟨fun a b => Nat.le_total b.val.length a.val.length⟩
  have : IsTrans Secret fun a b => b.val.length ≤ a.val.length := ⟨fun _ _ _ h h' => h'.trans h⟩
  exact pairwise_insertionSort _ secrets

/-! ## The log -/

/-- `'[REDACTED]'`. -/
def redactedMark : Bytes := [91, 82, 69, 68, 65, 67, 84, 69, 68, 93]

/-- `input.subarray(start, stop)`. -/
def subarray (input : Bytes) (start stop : Nat) : Bytes := (input.take stop).drop start

/-- The secret that is found at the cursor. -/
def found (secrets : List Secret) (input : Bytes) (cursor : Nat) : Option Secret :=
  secrets.find? fun secret => cursor + secret.val.length ≤ input.length &&
    subarray input cursor (cursor + secret.val.length) = secret.val

/-- `if (cursor > plainStart) output.push(input.subarray(plainStart, cursor))`. -/
def pushPlain (input : Bytes) (output : List Bytes) (plainStart cursor : Nat) : List Bytes :=
  if plainStart < cursor then output ++ [subarray input plainStart cursor] else output

/-- The loop: the cursor, the start of what has not been pushed, and what has. -/
def scanLoop (secrets : List Secret) (input : Bytes) (safeEnd cursor plainStart : Nat)
    (output : List Bytes) : Nat × Nat × List Bytes :=
  if cursor < safeEnd then
    match found secrets input cursor with
    | some secret =>
      scanLoop secrets input safeEnd (cursor + secret.val.length) (cursor + secret.val.length)
        (pushPlain input output plainStart cursor ++ [redactedMark])
    | none => scanLoop secrets input safeEnd (cursor + 1) plainStart output
  else (cursor, plainStart, output)
termination_by safeEnd - cursor
decreasing_by
  · have := secret.length_pos
    omega
  · omega

inductive Output where
  | stdout
  | stderr
  deriving DecidableEq

/-- An entry of `logRedaction`. -/
structure Redaction where
  secrets : List Secret
  pending : Output → Bytes

/-- A call, with the arguments of `log`. -/
structure LogCall where
  stream : Output
  chunk : Bytes
  final : Bool

def Redaction.ofSecrets (secrets : List Secret) : Redaction :=
  ⟨longestFirst secrets, fun _ => []⟩

/-- `log`, up to `chunk = Buffer.concat(output)`: the entry, and the chunk. -/
def Redaction.log (redaction : Redaction) (call : LogCall) : Redaction × Bytes :=
  let input := redaction.pending call.stream ++ call.chunk
  let maxSecret := (redaction.secrets.head?.map fun secret => secret.val.length).getD 1
  let safeEnd := if call.final then input.length else input.length + 1 - maxSecret
  let (cursor, plainStart, output) := scanLoop redaction.secrets input safeEnd 0 0 []
  ({ redaction with
      pending := fun stream =>
        if stream = call.stream then input.drop cursor else redaction.pending stream },
    (pushPlain input output plainStart cursor).flatten)

/-- Calls, and what each of them hands on. -/
def Redaction.run (redaction : Redaction) : List LogCall → List (Output × Bytes)
  | [] => []
  | call :: calls =>
    let (redaction, output) := redaction.log call
    (call.stream, output) :: redaction.run calls

/-! ## One call -/

/-- What is put into the log for what a scan makes of the stream. -/
def render (marks : List (Option UInt8)) : Bytes :=
  marks.flatMap fun mark =>
    match mark with
    | none => redactedMark
    | some b => [b]

/-- The bytes of the secrets. -/
def patterns (secrets : List Secret) : Set Bytes := {s | ∃ secret ∈ secrets, secret.val = s}

theorem nil_notMem_patterns (secrets : List Secret) : [] ∉ patterns secrets := by
  rintro ⟨secret, -, h⟩
  exact secret.property h

theorem mem_patterns {secrets : List Secret} {secret : Secret} (h : secret ∈ secrets) :
    secret.val ∈ patterns secrets := ⟨secret, h, rfl⟩

section Loop

variable {secrets : List Secret} {input : Bytes} {cursor : Nat}

theorem isFound_iff (secret : Secret) :
    (cursor + secret.val.length ≤ input.length &&
      subarray input cursor (cursor + secret.val.length) = secret.val) = true ↔
    secret.val <+: input.drop cursor := by
  have hpos := secret.length_pos
  have hslice : subarray input cursor (cursor + secret.val.length) =
      (input.drop cursor).take secret.val.length := by
    rw [subarray, drop_take, Nat.add_sub_cancel_left]
  rw [Bool.and_eq_true, decide_eq_true_eq, decide_eq_true_eq, hslice]
  constructor
  · rintro ⟨-, h⟩
    rw [← h]
    exact take_prefix _ _
  · intro h
    have hle := h.length_le
    rw [length_drop] at hle
    exact ⟨by omega, (prefix_iff_eq_take.1 h).symm⟩

theorem found_none (h : found secrets input cursor = none) :
    ∀ t ∈ patterns secrets, ¬ t <+: input.drop cursor := by
  rintro _ ⟨secret, hsecret, rfl⟩ hstarts
  exact find?_eq_none.1 h secret hsecret ((isFound_iff secret).2 hstarts)

/-- What is found is the longest: the secrets are in that order. -/
theorem found_some (hsorted : secrets.Pairwise fun a b => b.val.length ≤ a.val.length)
    {secret : Secret} (h : found secrets input cursor = some secret) :
    secret ∈ secrets ∧ secret.val <+: input.drop cursor ∧
      ∀ t ∈ patterns secrets, t <+: input.drop cursor → t.length ≤ secret.val.length := by
  obtain ⟨hfound, before, behind, rfl, hbefore⟩ := find?_eq_some_iff_append.1 h
  refine ⟨by simp, (isFound_iff secret).1 hfound, ?_⟩
  rintro _ ⟨t, ht, rfl⟩ hstarts
  rcases mem_append.1 ht with ht | ht
  · have hnot := hbefore t ht
    rw [(isFound_iff t).2 hstarts] at hnot
    cases hnot
  · rcases mem_cons.1 ht with rfl | ht
    · exact le_rfl
    · exact (pairwise_cons.1 (pairwise_append.1 hsorted).2.1).1 t ht

theorem subarray_self (input : Bytes) (start : Nat) : subarray input start start = [] := by
  rw [subarray, drop_eq_nil_iff, length_take]
  exact Nat.min_le_left _ _

theorem flatten_pushPlain (output : List Bytes) (plainStart : Nat) :
    (pushPlain input output plainStart cursor).flatten =
      output.flatten ++ subarray input plainStart cursor := by
  unfold pushPlain
  split
  next h => simp
  next h =>
    have hempty : subarray input plainStart cursor = [] := by
      rw [subarray, drop_eq_nil_iff, length_take]
      omega
    rw [hempty, append_nil]

theorem subarray_succ {plainStart : Nat} (hstart : plainStart ≤ cursor)
    (hcursor : cursor < input.length) :
    subarray input plainStart (cursor + 1) =
      subarray input plainStart cursor ++ [input[cursor]] := by
  have hlen : plainStart ≤ (input.take cursor).length := by
    rw [length_take]
    omega
  rw [subarray, subarray, take_succ_eq_append_getElem hcursor,
    drop_append_of_le_length hlen]

/-- The loop scans what is before the end that is safe, whatever comes behind the input: there
every secret can be seen whole, or nothing comes any more. -/
theorem scanLoop_scan (hsorted : secrets.Pairwise fun a b => b.val.length ≤ a.val.length)
    (input : Bytes) {safeEnd : Nat} (hend : safeEnd ≤ input.length) (more : Set Bytes)
    (hmore : ∀ z ∈ more, z = [] ∨
      ∀ secret ∈ secrets, ∀ cursor < safeEnd, cursor + secret.val.length ≤ input.length)
    (cursor plainStart : Nat) (output : List Bytes) (hplain : plainStart ≤ cursor)
    (hcursor : cursor ≤ input.length) :
    ∃ cursor' plainStart' output' marks,
      scanLoop secrets input safeEnd cursor plainStart output =
        (cursor', plainStart', output') ∧ safeEnd ≤ cursor' ∧ cursor' ≤ input.length ∧
      (pushPlain input output' plainStart' cursor').flatten =
        (pushPlain input output plainStart cursor).flatten ++ render marks ∧
      ∀ z ∈ more, ∀ rest, Scan (patterns secrets) (input.drop cursor' ++ z) rest →
        Scan (patterns secrets) (input.drop cursor ++ z) (marks ++ rest) := by
  have hseen : ∀ cursor < safeEnd, ∀ z ∈ more, ∀ t ∈ patterns secrets,
      t <+: input.drop cursor ++ z → t <+: input.drop cursor := by
    rintro cursor hlt z hz _ ⟨secret, hsecret, rfl⟩ hstarts
    rcases hmore z hz with rfl | hlen
    · rwa [append_nil] at hstarts
    · refine prefix_of_prefix_length_le hstarts (prefix_append _ _) ?_
      have hlen := hlen secret hsecret cursor hlt
      rw [length_drop]
      omega
  fun_induction scanLoop secrets input safeEnd cursor plainStart output with
  | case1 cursor plainStart output hlt secret hfound ih =>
    obtain ⟨hmem, hstarts, hlongest⟩ := found_some hsorted hfound
    have hle := hstarts.length_le
    rw [length_drop] at hle
    obtain ⟨c, p, o, marks, heq, hsafe, hin, hout, hscan⟩ := ih le_rfl (by omega)
    refine ⟨c, p, o, none :: marks, heq, hsafe, hin, ?_, fun z hz rest hrest => ?_⟩
    · rw [hout, flatten_pushPlain, subarray_self, append_nil, flatten_append]
      simp [render]
    · obtain ⟨r, hr⟩ := hstarts
      have hdrop : input.drop (cursor + secret.val.length) = r := by
        rw [← drop_drop, ← hr, drop_left]
      have hrest := hscan z hz rest hrest
      rw [hdrop] at hrest
      rw [← hr, append_assoc]
      refine Scan.found (mem_patterns hmem) (fun t ht hstarts => hlongest t ht ?_) hrest
      rw [← append_assoc, hr] at hstarts
      exact hseen cursor hlt z hz t ht hstarts
  | case2 cursor plainStart output hlt hfound ih =>
    have hlt' : cursor < input.length := by omega
    obtain ⟨c, p, o, marks, heq, hsafe, hin, hout, hscan⟩ := ih (by omega) hlt'
    refine ⟨c, p, o, some input[cursor] :: marks, heq, hsafe, hin, ?_, fun z hz rest hrest => ?_⟩
    · rw [hout, flatten_pushPlain, flatten_pushPlain, subarray_succ hplain hlt']
      simp [render]
    · have hdrop := drop_eq_getElem_cons hlt'
      have hnone := found_none hfound
      rw [hdrop] at hnone ⊢
      refine Scan.kept (fun t ht hstarts => hnone t ht ?_) (hscan z hz rest hrest)
      rw [← hdrop]
      refine hseen cursor hlt z hz t ht ?_
      rw [hdrop]
      exact hstarts
  | case3 cursor plainStart output hlt =>
    exact ⟨cursor, plainStart, output, [], rfl, by omega, hcursor, by simp [render],
      fun z _ rest hrest => hrest⟩

end Loop

section Log

variable {redaction : Redaction} (call : LogCall)

/-- The longest secrets come first, in an entry. -/
def Redaction.Sorted (redaction : Redaction) : Prop :=
  redaction.secrets.Pairwise fun a b => b.val.length ≤ a.val.length

variable {call} in
theorem log_pending_of_ne {stream : Output} (h : stream ≠ call.stream) :
    (redaction.log call).1.pending stream = redaction.pending stream := if_neg h

theorem length_le_maxSecret {secrets : List Secret}
    (hsorted : secrets.Pairwise fun a b => b.val.length ≤ a.val.length) {secret : Secret}
    (h : secret ∈ secrets) :
    secret.val.length ≤ (secrets.head?.map fun secret => secret.val.length).getD 1 := by
  cases secrets with
  | nil => cases h
  | cons first rest =>
    rcases mem_cons.1 h with rfl | h
    · exact le_rfl
    · exact (pairwise_cons.1 hsorted).1 secret h

theorem maxSecret_pos (secrets : List Secret) :
    0 < (secrets.head?.map fun secret => secret.val.length).getD 1 := by
  cases secrets with
  | nil => exact Nat.one_pos
  | cons first rest => exact first.length_pos

/-- A chunk is scanned, with what was held back, up to what is held back next. -/
theorem log_data (hsorted : redaction.Sorted) (hdata : call.final = false) :
    ∃ marks, (redaction.log call).2 = render marks ∧
      ∀ z rest, Scan (patterns redaction.secrets)
          ((redaction.log call).1.pending call.stream ++ z) rest →
        Scan (patterns redaction.secrets)
          (redaction.pending call.stream ++ (call.chunk ++ z)) (marks ++ rest) := by
  have hpos := maxSecret_pos redaction.secrets
  have hend : (redaction.pending call.stream ++ call.chunk).length + 1 -
      (redaction.secrets.head?.map fun secret => secret.val.length).getD 1 ≤
      (redaction.pending call.stream ++ call.chunk).length := by omega
  have hseen : ∀ secret ∈ redaction.secrets, ∀ cursor <
      (redaction.pending call.stream ++ call.chunk).length + 1 -
        (redaction.secrets.head?.map fun secret => secret.val.length).getD 1,
      cursor + secret.val.length ≤ (redaction.pending call.stream ++ call.chunk).length := by
    intro secret hsecret cursor hlt
    have hle := length_le_maxSecret hsorted hsecret
    omega
  obtain ⟨cursor, plainStart, output, marks, heq, -, -, hout, hscan⟩ :=
    scanLoop_scan hsorted (redaction.pending call.stream ++ call.chunk) hend Set.univ
      (fun z _ => .inr hseen) 0 0 [] le_rfl (Nat.zero_le _)
  refine ⟨marks, ?_, fun z rest hrest => ?_⟩
  · simp only [Redaction.log, hdata, Bool.false_eq_true, if_false, heq]
    rw [hout, flatten_pushPlain, subarray_self]
    rfl
  · have hpending : (redaction.log call).1.pending call.stream =
        (redaction.pending call.stream ++ call.chunk).drop cursor := by
      simp only [Redaction.log, hdata, Bool.false_eq_true, if_false, heq, if_true]
    rw [hpending] at hrest
    rw [← append_assoc]
    exact hscan z trivial rest hrest

/-- At the end everything is scanned. -/
theorem log_final (hsorted : redaction.Sorted) (hfinal : call.final = true) :
    ∃ marks, (redaction.log call).2 = render marks ∧
      Scan (patterns redaction.secrets) (redaction.pending call.stream ++ call.chunk) marks := by
  obtain ⟨cursor, plainStart, output, marks, heq, hend, hle, hout, hscan⟩ :=
    scanLoop_scan hsorted (redaction.pending call.stream ++ call.chunk) le_rfl {[]}
      (fun z hz => .inl hz) 0 0 [] le_rfl (Nat.zero_le _)
  refine ⟨marks, ?_, ?_⟩
  · simp only [Redaction.log, hfinal, if_true, heq]
    rw [hout, flatten_pushPlain, subarray_self]
    rfl
  · have hempty : (redaction.pending call.stream ++ call.chunk).drop cursor = [] :=
      drop_eq_nil_iff.2 hend
    have hrest := hscan [] rfl [] (by rw [hempty]; exact Scan.nil)
    rwa [append_nil, append_nil] at hrest

end Log

/-! ## Runs -/

/-- What the calls for a stream have handed on. -/
def handed (stream : Output) (outputs : List (Output × Bytes)) : Bytes :=
  (outputs.filter fun output => output.1 = stream).flatMap Prod.snd

/-- The chunks of a stream, and its end. -/
def streamCalls (stream : Output) (chunks : List Bytes) (last : Bytes) : List LogCall :=
  chunks.map (fun chunk => ⟨stream, chunk, false⟩) ++ [⟨stream, last, true⟩]

variable {stream : Output}

variable {output : Output × Bytes} {outputs : List (Output × Bytes)} {calls : List LogCall}

theorem handed_cons_of_ne (h : output.1 ≠ stream) :
    handed stream (output :: outputs) = handed stream outputs := by
  simp [handed, h]

theorem handed_cons_of_eq (h : output.1 = stream) :
    handed stream (output :: outputs) = output.2 ++ handed stream outputs := by
  simp [handed, h]

theorem handed_run_of_none (redaction : Redaction)
    (h : calls.filter (fun call => call.stream = stream) = []) :
    handed stream (redaction.run calls) = [] := by
  induction calls generalizing redaction with
  | nil => rfl
  | cons call calls ih =>
    obtain ⟨hstream, hcalls⟩ := forall_mem_cons.1 (filter_eq_nil_iff.1 h)
    rw [Redaction.run, handed_cons_of_ne (by simpa using hstream)]
    exact ih _ (filter_eq_nil_iff.2 hcalls)

/-- The calls for a stream, among those for the other, scan what is held back and all that
comes. -/
theorem run_scan {redaction : Redaction} (hsorted : redaction.Sorted) {chunks : List Bytes}
    {last : Bytes}
    (h : calls.filter (fun call => call.stream = stream) = streamCalls stream chunks last) :
    ∃ marks, handed stream (redaction.run calls) = render marks ∧
      Scan (patterns redaction.secrets)
        (redaction.pending stream ++ (chunks.flatten ++ last)) marks := by
  induction calls generalizing redaction chunks with
  | nil => cases chunks <;> cases h
  | cons call calls ih =>
    rw [Redaction.run]
    by_cases hstream : call.stream = stream
    · rw [filter_cons, if_pos (decide_eq_true hstream)] at h
      rw [handed_cons_of_eq hstream]
      cases chunks with
      | nil =>
        -- the end of the stream, and no call for it is left
        obtain ⟨rfl, hnone⟩ := cons_eq_cons.1 h
        obtain ⟨marks, hout, hscan⟩ := log_final ⟨stream, last, true⟩ hsorted rfl
        have hrest := handed_run_of_none (redaction.log ⟨stream, last, true⟩).1 hnone
        exact ⟨marks, by rw [hrest, append_nil, hout], hscan⟩
      | cons chunk chunks =>
        obtain ⟨rfl, hcalls⟩ := cons_eq_cons.1 h
        obtain ⟨marks, hout, hscan⟩ := log_data ⟨stream, chunk, false⟩ hsorted rfl
        obtain ⟨marks', hout', hscan'⟩ :=
          @ih (redaction.log ⟨stream, chunk, false⟩).1 hsorted chunks hcalls
        refine ⟨marks ++ marks', ?_, ?_⟩
        · rw [hout, hout', render, render, render, flatMap_append]
        · rw [flatten_cons, append_assoc]
          exact hscan _ _ hscan'
    · rw [filter_cons, if_neg (by simpa using hstream)] at h
      obtain ⟨marks, hout, hscan⟩ := @ih (redaction.log call).1 hsorted chunks h
      refine ⟨marks, ?_, ?_⟩
      · rw [handed_cons_of_ne hstream, hout]
      · rwa [log_pending_of_ne (Ne.symm hstream)] at hscan

theorem patterns_longestFirst (secrets : List Secret) :
    patterns (longestFirst secrets) = patterns secrets := by
  ext s
  simp only [patterns, mem_longestFirst]

/-- What is handed on for a stream, in whatever chunks it comes and whatever comes on the other
stream, is what the one scan of the whole stream makes of it.  No secret is left in what the scan
keeps. -/
theorem log_scan (secrets : List Secret) {stream : Output} {calls : List LogCall}
    {chunks : List Bytes} {last : Bytes}
    (h : calls.filter (fun call => call.stream = stream) = streamCalls stream chunks last) :
    ∃ marks, (∀ marks', Scan (patterns secrets) (chunks.flatten ++ last) marks' ↔
        marks' = marks) ∧
      handed stream ((Redaction.ofSecrets secrets).run calls) = render marks ∧
      ∀ secret ∈ secrets, ¬ secret.val.map some <:+: marks := by
  obtain ⟨marks, hout, hscan⟩ :=
    run_scan (show (Redaction.ofSecrets secrets).Sorted from pairwise_longestFirst secrets) h
  have hscan : Scan (patterns secrets) (chunks.flatten ++ last) marks :=
    patterns_longestFirst secrets ▸ hscan
  have hne := nil_notMem_patterns secrets
  refine ⟨marks, fun marks' => ⟨fun h => h.unique hne hscan, fun h => h ▸ hscan⟩, hout,
    fun secret hsecret => hscan.not_infix hne (mem_patterns hsecret)⟩

/-- A secret that is cut in the middle. -/
theorem log_scan_cut :
    handed .stdout ((Redaction.ofSecrets [⟨[112, 119], List.cons_ne_nil _ _⟩]).run
      (streamCalls .stdout [[97, 112], [119, 98]] [])) = [97] ++ redactedMark ++ [98] := by
  have hcalls : (streamCalls .stdout [[97, 112], [119, 98]] []).filter
      (fun call => call.stream = .stdout) = streamCalls .stdout [[97, 112], [119, 98]] [] := rfl
  obtain ⟨marks, hmarks, hout, -⟩ := log_scan [⟨[112, 119], List.cons_ne_nil _ _⟩] hcalls
  have hone : ∀ t ∈ patterns [⟨[112, 119], List.cons_ne_nil _ _⟩], t = [112, 119] := by
    rintro _ ⟨secret, hsecret, rfl⟩
    rw [List.mem_singleton.1 hsecret]
  have hscan : Scan (patterns [⟨[112, 119], List.cons_ne_nil _ _⟩]) [97, 112, 119, 98]
      [some 97, none, some 98] := by
    refine Scan.kept (fun t ht => ?_) (Scan.found (s := [112, 119]) (r := [98])
      (mem_patterns (List.mem_singleton_self _)) (fun t ht _ => (hone t ht ▸ le_rfl))
      (Scan.kept (fun t ht => ?_) Scan.nil))
    · rw [hone t ht]
      decide
    · rw [hone t ht]
      decide
  rw [hout, ← (hmarks _).1 hscan]
  rfl

end NapiVm.Plugin.Trusted

import NapiVm.Host.Convert
import NapiVm.Lib.Template
import NapiVm.Text.Str
import Mathlib.Data.List.Destutter
import Mathlib.Data.List.Sort

/-!
# Secrets in errors

An error of a plugin is cleaned of secrets before anybody sees it: of what the load options hold,
and in the last place of the token of the session.  The secrets are replaced one after the other.

* `connectionSecrets`, `redactError` — the code.
* `Clean` — no secret is found where it takes a part of a token.
* `redactError_fill` — then what is left does not depend on the token.
-/

namespace NapiVm.Plugin.Sanitize

open Str

abbrev Text := List Char

/-! ## The secrets -/

structure ServiceConnection where
  url : Text
  headers : List (Text × Text)

/-- `LoadOptions`: maps stand in the order of their keys. -/
structure LoadOptions where
  environment : List (Text × Text)
  services : List (Text × ServiceConnection)

/-- `u8::to_digit`, base 16. -/
def hexDigit (b : UInt8) : Option UInt8 :=
  if 48 ≤ b ∧ b ≤ 57 then some (b - 48)
  else if 97 ≤ b ∧ b ≤ 102 then some (b - 87)
  else if 65 ≤ b ∧ b ≤ 70 then some (b - 55)
  else none

/-- The bytes of a component; a `+` is a blank. -/
def decodeBytes : List UInt8 → List UInt8
  | 37 :: a :: b :: rest =>
    match hexDigit a, hexDigit b with
    | some x, some y => (x * 16 + y) :: decodeBytes rest
    | _, _ => 37 :: decodeBytes (a :: b :: rest)
  | b :: rest => (if b = 43 then 32 else b) :: decodeBytes rest
  | [] => []

/-- `decode_url_component`. -/
def decodeUrlComponent (value : Text) : Text :=
  fromUtf8Lossy (decodeBytes (value.flatMap String.utf8EncodeChar))

/-- A part of a URL, as it stands and decoded. -/
def urlSecrets (part : Text) : List Text :=
  if part = [] then [] else [part, decodeUrlComponent part]

def userinfoSecrets (url : Text) : List Text :=
  match splitOnce "://".toList url with
  | none => []
  | some (_, rest) =>
    let authority := rest.takeWhile fun c => c ≠ '/' && c ≠ '?' && c ≠ '#'
    match rsplitOnce '@' authority with
    | none => []
    | some (userinfo, _) => (userinfo.splitOn ':').flatMap urlSecrets

def querySecrets (url : Text) : List Text :=
  match splitOnce ['?'] url with
  | none => []
  | some (_, query) =>
    ((query.takeWhile fun c => c ≠ '#').splitOn '&').flatMap fun pair =>
      match splitOnce ['='] pair with
      | none => []
      | some (_, value) => urlSecrets value

/-- What stands behind the scheme of an authorization. -/
def credential (header : Text × Text) : Option Text :=
  if eqIgnoreAsciiCase header.1 "authorization".toList ||
      eqIgnoreAsciiCase header.1 "proxy-authorization".toList then
    match splitOnce [' '] header.2 with
    | none => none
    | some (_, credential) => if trim credential = [] then none else some (trim credential)
  else none

def serviceSecrets (service : ServiceConnection) : List Text :=
  (service.headers.map Prod.snd).filter (· ≠ []) ++ service.headers.filterMap credential ++
    [service.url] ++ userinfoSecrets service.url ++ querySecrets service.url

/-- `connection_secrets`: the longest first. -/
def connectionSecrets (options : LoadOptions) : List Text :=
  let secrets := (options.environment.map Prod.snd).filter (· ≠ []) ++
    options.services.flatMap fun service => serviceSecrets service.2
  ((secrets.filter (· ≠ [])).insertionSort fun a b => len b ≤ len a).destutter (· ≠ ·)

/-- The secrets of an instance that starts: the token comes behind the others. -/
def instanceSecrets (options : LoadOptions) (token : Text) : List Text :=
  connectionSecrets options ++ [token]

/-! ## The errors -/

/-- `serde_json::Value`, with strings that may be templates. -/
inductive Value (σ : Type) where
  | null
  | bool (b : Bool)
  | number (n : Host.JsonNumber)
  | string (s : σ)
  | array (items : List (Value σ))
  | object (fields : List (Text × Value σ))

/-- `RpcError`. -/
structure RpcError (σ : Type) where
  code : Int
  message : σ
  data : Value σ

def mark : Text := "[redacted]".toList

/-- `str::replace`, by a mark. -/
def replace (pattern text : Text) : Text :=
  if pattern = [] then mark ++ text.flatMap fun c => c :: mark
  else replaceAll mark pattern text

/-- `text`. -/
def text (secrets : List Text) (value : Text) : Text :=
  secrets.foldl (fun value secret => replace secret value) value

/-- Protocol and domain identifiers. -/
def isPublic (key : Text) : Bool := key = "code".toList || key = "domainCode".toList

/-- Whether a key is searched for secrets. -/
def keySearched (envelope : Bool) (key : Text) : Bool := !envelope || key ≠ "data".toList

/-- `Map::insert`, which keeps the fields in the order of their insertion or of their keys. -/
abbrev Insert := List (Text × Value Text) → Text → Value Text → List (Text × Value Text)

section Redact

variable (insert : Insert) (secrets : List Text)

mutual

/-- `redact`. -/
def redact (envelope : Bool) : Value Text → Value Text
  | .null => .null
  | .bool b => .bool b
  | .number n => .number n
  | .string s => .string (text secrets s)
  | .array items => .array (redactItems items)
  | .object fields => .object (redactFields envelope [] fields)

def redactItems : List (Value Text) → List (Value Text)
  | [] => []
  | item :: rest => redact false item :: redactItems rest

/-- The fields, put into `out`. -/
def redactFields (envelope : Bool) (out : List (Text × Value Text)) :
    List (Text × Value Text) → List (Text × Value Text)
  | [] => out
  | (key, item) :: rest =>
    if envelope && isPublic key then redactFields envelope (insert out key item) rest
    else
      let key := if keySearched envelope key then text secrets key else key
      redactFields envelope (insert out key (redact false item)) rest

end

/-- `redact_error`. -/
def redactError (error : RpcError Text) : RpcError Text where
  code := error.code
  message := text secrets error.message
  data := redact insert secrets true error.data

end Redact

/-! ## Errors with tokens in them -/

mutual

def Value.map {σ τ : Type} (f : σ → τ) : Value σ → Value τ
  | .null => .null
  | .bool b => .bool b
  | .number n => .number n
  | .string s => .string (f s)
  | .array items => .array (Value.mapItems f items)
  | .object fields => .object (Value.mapFields f fields)

def Value.mapItems {σ τ : Type} (f : σ → τ) : List (Value σ) → List (Value τ)
  | [] => []
  | item :: rest => Value.map f item :: Value.mapItems f rest

def Value.mapFields {σ τ : Type} (f : σ → τ) : List (Text × Value σ) → List (Text × Value τ)
  | [] => []
  | (key, item) :: rest => (key, Value.map f item) :: Value.mapFields f rest

end

/-- An error whose message and strings are templates, with a token in every blank. -/
def RpcError.fill (error : RpcError (Template Char)) (token : Text) : RpcError Text where
  code := error.code
  message := NapiVm.fill token error.message
  data := error.data.map (NapiVm.fill token)

mutual

/-- The texts of a value that are searched for secrets. -/
def Value.searched (envelope : Bool) : Value (Template Char) → List (Template Char)
  | .string s => [s]
  | .array items => Value.searchedItems items
  | .object fields => Value.searchedFields envelope fields
  | _ => []

def Value.searchedItems : List (Value (Template Char)) → List (Template Char)
  | [] => []
  | item :: rest => Value.searched false item ++ Value.searchedItems rest

def Value.searchedFields (envelope : Bool) :
    List (Text × Value (Template Char)) → List (Template Char)
  | [] => []
  | (key, item) :: rest =>
    (if envelope && isPublic key then []
      else (if keySearched envelope key then [plain key] else []) ++ Value.searched false item) ++
    Value.searchedFields envelope rest

end

def RpcError.searched (error : RpcError (Template Char)) : List (Template Char) :=
  error.message :: error.data.searched true

/-- The fields of an envelope. -/
def Value.fields {σ : Type} : Value σ → List (Text × Value σ)
  | .object fields => fields
  | _ => []

/-- The text of a string. -/
def Value.text? {σ : Type} : Value σ → Option σ
  | .string s => some s
  | _ => none

/-- No token is in the protocol and domain identifiers of an envelope. -/
def Identified (fields : List (Text × Value (Template Char))) : Prop :=
  ∀ field ∈ fields, isPublic field.1 → ∃ v : Value Text, field.2 = v.map plain

/-- No secret is found where it takes a part of a token, and the token is found in the blanks
only. -/
def Clean (token : Text) : List Text → Template Char → Prop
  | [], w => Unmistakable token w
  | secret :: secrets, w =>
    Intact token secret w ∧ Clean token secrets (replaceAll (plain mark) (plain secret) w)

/-! ## One text -/

theorem nonempty_of_mem {options : LoadOptions} {secret : Text}
    (h : secret ∈ connectionSecrets options) : secret ≠ [] := by
  have hmem := (List.destutter_sublist _ _).subset h
  rw [List.mem_insertionSort] at hmem
  exact of_decide_eq_true (List.mem_filter.1 hmem).2

/-- What is left of a text has a mark where a token was. -/
theorem text_clean {token : Text} {secrets : List Text} {w : Template Char} (ht : token ≠ [])
    (hs : ∀ secret ∈ secrets, secret ≠ []) (h : Clean token secrets w) :
    text (secrets ++ [token]) (fill token w) =
      fill mark (replaceEach (plain mark) (secrets.map plain) w) := by
  induction secrets generalizing w with
  | nil =>
    show replace token (fill token w) = fill mark w
    rw [replace, if_neg ht]
    exact replaceAll_blank mark ht h
  | cons secret secrets ih =>
    obtain ⟨hsecret, hsecrets⟩ := List.forall_mem_cons.1 hs
    have hpass : replace secret (fill token w) =
        fill token (replaceAll (plain mark) (plain secret) w) := by
      rw [replace, if_neg hsecret]
      exact replaceAll_fill mark ht hsecret h.1
    show text (secrets ++ [token]) (replace secret (fill token w)) = _
    rw [hpass, ih hsecrets h.2]
    rfl

/-! ## A whole error -/

mutual

theorem Value.map_plain (token : Text) : ∀ v : Value Text, (v.map plain).map (fill token) = v
  | .null | .bool _ | .number _ => rfl
  | .string s => congrArg Value.string (fill_plain token s)
  | .array items => congrArg Value.array (Value.mapItems_plain token items)
  | .object fields => congrArg Value.object (Value.mapFields_plain token fields)

theorem Value.mapItems_plain (token : Text) : ∀ items : List (Value Text),
    Value.mapItems (fill token) (Value.mapItems plain items) = items
  | [] => rfl
  | item :: rest => congrArg₂ List.cons (Value.map_plain token item)
      (Value.mapItems_plain token rest)

theorem Value.mapFields_plain (token : Text) : ∀ fields : List (Text × Value Text),
    Value.mapFields (fill token) (Value.mapFields plain fields) = fields
  | [] => rfl
  | (key, item) :: rest =>
    congrArg₂ List.cons (congrArg (Prod.mk key) (Value.map_plain token item))
      (Value.mapFields_plain token rest)

end

section Agree

variable {insert : Insert} {s₁ s₂ : List Text} {t₁ t₂ : Text}

/-- What is left of a text does not depend on the token. -/
def Agree (s₁ s₂ : List Text) (t₁ t₂ : Text) (w : Template Char) : Prop :=
  text s₁ (fill t₁ w) = text s₂ (fill t₂ w)

mutual

theorem redact_agree : ∀ (envelope : Bool) (v : Value (Template Char)),
    (∀ w ∈ v.searched envelope, Agree s₁ s₂ t₁ t₂ w) →
    (envelope = true → Identified v.fields) →
    redact insert s₁ envelope (v.map (fill t₁)) = redact insert s₂ envelope (v.map (fill t₂))
  | _, .null, _, _ | _, .bool _, _, _ | _, .number _, _, _ => rfl
  | _, .string w, h, _ => congrArg Value.string (h w (List.mem_singleton.2 rfl))
  | _, .array items, h, _ => congrArg Value.array (redactItems_agree items h)
  | envelope, .object fields, h, hid =>
    congrArg Value.object (redactFields_agree envelope fields h hid [])

theorem redactItems_agree : ∀ items : List (Value (Template Char)),
    (∀ w ∈ Value.searchedItems items, Agree s₁ s₂ t₁ t₂ w) →
    redactItems insert s₁ (Value.mapItems (fill t₁) items) =
      redactItems insert s₂ (Value.mapItems (fill t₂) items)
  | [], _ => rfl
  | item :: rest, h => by
      obtain ⟨hitem, hrest⟩ := List.forall_mem_append.1 h
      exact congrArg₂ List.cons (redact_agree false item hitem nofun) (redactItems_agree rest hrest)

theorem redactFields_agree (envelope : Bool) : ∀ fields : List (Text × Value (Template Char)),
    (∀ w ∈ Value.searchedFields envelope fields, Agree s₁ s₂ t₁ t₂ w) →
    (envelope = true → Identified fields) → ∀ out,
    redactFields insert s₁ envelope out (Value.mapFields (fill t₁) fields) =
      redactFields insert s₂ envelope out (Value.mapFields (fill t₂) fields)
  | [], _, _, _ => rfl
  | (key, item) :: rest, h, hid, out => by
      obtain ⟨hfirst, hrest⟩ := List.forall_mem_append.1 h
      have hnext := redactFields_agree envelope rest hrest
        fun he field hfield => hid he field (List.mem_cons_of_mem _ hfield)
      rw [Value.mapFields, Value.mapFields, redactFields, redactFields]
      by_cases hpublic : (envelope && isPublic key) = true
      · -- an identifier is the same before
        obtain ⟨he, hkey⟩ := Bool.and_eq_true_iff.1 hpublic
        obtain ⟨v, hv⟩ := hid he (key, item) List.mem_cons_self hkey
        rw [if_pos hpublic, if_pos hpublic, show item = v.map plain from hv, Value.map_plain,
          Value.map_plain, hnext]
      · rw [if_neg hpublic] at hfirst
        obtain ⟨hkey, hitem⟩ := List.forall_mem_append.1 hfirst
        have hvalue := redact_agree false item hitem nofun
        rw [if_neg hpublic, if_neg hpublic, hvalue]
        by_cases hsearched : keySearched envelope key = true
        · have htext := hkey (plain key) (by rw [if_pos hsearched]; exact List.mem_cons_self)
          rw [Agree, fill_plain, fill_plain] at htext
          simp only [hsearched, if_true, htext, hnext]
        · simp only [hsearched, Bool.false_eq_true, if_false, hnext]

end

end Agree

/-! ## Secrets that have nothing in common with a token -/

theorem mem_replaceAll {pattern l : Template Char} {c : Option Char} (hne : pattern ≠ [])
    (h : c ∈ replaceAll (plain mark) pattern l) : c ∈ plain mark ∨ c ∈ l := by
  induction l using replace_induction pattern hne with
  | nil => exact .inr h
  | found r ih =>
    rw [replaceAll_match hne] at h
    rcases List.mem_append.1 h with h | h
    · exact .inl h
    · exact (ih h).imp_right fun hr => List.mem_append_right _ hr
  | cons a r hstarts ih =>
    rw [replaceAll_cons hstarts] at h
    rcases List.mem_cons.1 h with rfl | h
    · exact .inr List.mem_cons_self
    · exact (ih h).imp_right fun hr => List.mem_cons_of_mem _ hr

/-- The first character of the token is in no text, and none of its characters in a secret. -/
theorem clean_of_disjoint {c : Char} {token : Text} {secrets : List Text} {w : Template Char}
    (hmark : c ∉ mark) (hs : ∀ secret ∈ secrets, secret ≠ [] ∧ ∀ a ∈ secret, a ∉ c :: token)
    (hw : some c ∉ w) : Clean (c :: token) secrets w := by
  induction secrets generalizing w with
  | nil =>
    intro u a v hsplit hstarts
    obtain ⟨rfl, -⟩ := List.cons_prefix_cons.1 hstarts
    refine hw ?_
    rw [hsplit]
    exact List.mem_append_right _ List.mem_cons_self
  | cons secret secrets ih =>
    obtain ⟨⟨hne, hdisjoint⟩, hsecrets⟩ := List.forall_mem_cons.1 hs
    have hplain : plain secret ≠ [] := fun hnil => hne (List.map_eq_nil_iff.1 hnil)
    refine ⟨intact_of_disjoint (List.cons_ne_nil _ _) hne hdisjoint, ih hsecrets fun h => ?_⟩
    rcases mem_replaceAll hplain h with h | h
    · obtain ⟨a, ha, hac⟩ := List.mem_map.1 h
      exact hmark (Option.some.inj hac ▸ ha)
    · exact hw h

/-! ## Two tokens -/

/-- A map that keeps the order of insertion. -/
def indexInsert : Insert := fun fields key item =>
  if fields.any fun field => field.1 = key then
    fields.map fun field => if field.1 = key then (key, item) else field
  else fields ++ [(key, item)]

/-- Options with one secret. -/
def homeOptions : LoadOptions := ⟨[("HOME".toList, ['x'])], []⟩

/-- An error with that secret and a token in its message, and a token in its details. -/
def internalError : RpcError (Template Char) where
  code := -32603
  message := [some 'x', none]
  data := .object [("code".toList, .string (plain "INTERNAL_ERROR".toList)),
    ("details".toList, .string [none])]

/-- An error with a token for its domain code. -/
def domainError : RpcError (Template Char) where
  code := -32012
  message := []
  data := .object [("code".toList, .string (plain "APPLICATION_ERROR".toList)),
    ("domainCode".toList, .string [none]), ("data".toList, .null)]

/-- An error with a token for its message. -/
def tokenError : RpcError (Template Char) where
  code := -32603
  message := [none]
  data := .object [("code".toList, .string (plain "INTERNAL_ERROR".toList))]

theorem secrets_disjoint {t : Text} (h : 'x' ∉ t) :
    ∀ secret ∈ connectionSecrets homeOptions, secret ≠ [] ∧ ∀ a ∈ secret, a ∉ t := by
  have hsecrets : connectionSecrets homeOptions = [['x']] := by decide
  rw [hsecrets]
  exact List.forall_mem_singleton.2 ⟨by decide, List.forall_mem_singleton.2 h⟩

theorem searched_clear {w : Template Char} (h : w ∈ internalError.searched) :
    some '1' ∉ w ∧ some '3' ∉ w := by
  have hsearched : internalError.searched =
      [[some 'x', none], plain "details".toList, [none]] := rfl
  rw [hsearched] at h
  rcases List.mem_cons.1 h with rfl | h
  · decide
  · rcases List.mem_pair.1 h with rfl | rfl <;> decide

/-- What is left of an error does not depend on the token. -/
theorem redactError_fill (insert : Insert) (options : LoadOptions)
    (error : RpcError (Template Char)) {t₁ t₂ : Text} (hlength : t₁.length = t₂.length)
    (hidentified : Identified error.data.fields)
    (h₁ : ∀ w ∈ error.searched, Clean t₁ (connectionSecrets options) w)
    (h₂ : ∀ w ∈ error.searched, Clean t₂ (connectionSecrets options) w) :
    redactError insert (instanceSecrets options t₁) (error.fill t₁) =
      redactError insert (instanceSecrets options t₂) (error.fill t₂) := by
  by_cases ht : t₁ = []
  · rw [ht, List.eq_nil_of_length_eq_zero (hlength.symm.trans (congrArg List.length ht))]
  · have ht' : t₂ ≠ [] := fun hnil =>
      ht (List.eq_nil_of_length_eq_zero (hlength.trans (congrArg List.length hnil)))
    have hagree : ∀ w ∈ error.searched,
        Agree (instanceSecrets options t₁) (instanceSecrets options t₂) t₁ t₂ w := by
      intro w hw
      have hleft := text_clean ht (fun _ => nonempty_of_mem) (h₁ w hw)
      have hright := text_clean ht' (fun _ => nonempty_of_mem) (h₂ w hw)
      exact hleft.trans hright.symm
    obtain ⟨hmessage, hdata⟩ := List.forall_mem_cons.1 hagree
    rw [redactError, redactError, RpcError.mk.injEq]
    exact ⟨rfl, hmessage, redact_agree true error.data hdata fun _ => hidentified⟩

theorem redactError_fill_internal :
    redactError indexInsert (instanceSecrets homeOptions ['1', '2'])
      (internalError.fill ['1', '2']) =
    redactError indexInsert (instanceSecrets homeOptions ['3', '4'])
      (internalError.fill ['3', '4']) := by
  have hlength : ['1', '2'].length = ['3', '4'].length := rfl
  refine redactError_fill indexInsert homeOptions internalError hlength ?_ (fun w hw => ?_)
    (fun w hw => ?_)
  · rintro ⟨key, v⟩ hfield hpublic
    rcases List.mem_pair.1 hfield with heq | heq
    · exact ⟨.string "INTERNAL_ERROR".toList, (Prod.mk.inj heq).2⟩
    · rw [(Prod.mk.inj heq).1] at hpublic
      have hdetails : isPublic "details".toList = true := hpublic
      exact absurd hdetails (by decide)
  · exact clean_of_disjoint (by decide) (secrets_disjoint (by decide)) (searched_clear hw).1
  · exact clean_of_disjoint (by decide) (secrets_disjoint (by decide)) (searched_clear hw).2

/-- A token is left in the domain code, and so is a part of it when a secret is another part. -/
theorem redactError_fill_shown :
    redactError indexInsert (instanceSecrets homeOptions ['1', '2'])
      (domainError.fill ['1', '2']) ≠
    redactError indexInsert (instanceSecrets homeOptions ['3', '4'])
      (domainError.fill ['3', '4']) ∧
    redactError indexInsert (instanceSecrets homeOptions ['x', 'y'])
      (tokenError.fill ['x', 'y']) ≠
    redactError indexInsert (instanceSecrets homeOptions ['3', '4'])
      (tokenError.fill ['3', '4']) := by
  constructor
  · intro h
    have hcode := congrArg (fun error => error.data.fields.map fun field => field.2.text?) h
    exact absurd hcode (by decide)
  · intro h
    have hmessage := congrArg RpcError.message h
    exact absurd hmessage (by decide)

end NapiVm.Plugin.Sanitize

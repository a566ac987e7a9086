import CallContract.Command.Flags
import CallContract.Proofs.Doc.ParamPaths
import CallContract.Proofs.Json.Fields
import CallContract.Proofs.Table

/-!
# Reading written settings back

A `Setting` is a text for an option, with the way in which it is written on the command line. The
words of one setting, whatever comes behind them, add one value to those read so far
(`Command.readFlagsOnto_words`), and what has been read is at every point what the settings behind
it give their options (`Command.Holds`) : the last value of an option, or all of them in order if
it may be given more than once. `Command.readFlags_words` is the run over a list of settings that
mixes the ways of writing.
-/

namespace CallContract

/-- A character names an option if it is the short name of that option and of no other. -/
structure OptionSchema.Designates (schema : OptionSchema) (c : Char) (name : String) : Prop where
  ne_dash : c ≠ '-'
  short : ∃ spec, schema.options.find? name = some spec ∧ spec.short = some (String.singleton c)
  only : ∀ e ∈ schema.options, e.2.short = some (String.singleton c) → e.1 = name

theorem OptionSchema.Designates.named? {schema : OptionSchema} {c : Char} {name : String}
    (h : schema.Designates c name) : schema.named? (String.singleton c) = some name := by
  obtain ⟨spec, hfind, hshort⟩ := h.short
  have hmem := Table.mem_of_find? hfind
  unfold OptionSchema.named?
  cases hfirst : List.find? (fun e => e.2.short == some (String.singleton c)) schema.options with
  | none => exact absurd (beq_iff_eq.mpr hshort) (List.find?_eq_none.mp hfirst _ hmem)
  | some e =>
    have hcarries : e.2.short = some (String.singleton c) := by
      simpa using List.find?_some hfirst
    rw [Option.map_some, h.only e (List.mem_of_find?_eq_some hfirst) hcarries]

namespace Command

open Json (Value Fields)

/-- The ways to write a setting : behind an equals sign, as a word behind the full or the short
name, or by naming an option that is set to true. -/
inductive Spelling where
  | inline
  | separate
  | short (c : Char)
  | bare
  | bareShort (c : Char)
deriving DecidableEq

/-- A text for an option, as it is written on the command line. -/
structure Setting where
  name : String
  text : String
  spelling : Spelling
deriving DecidableEq

namespace Setting

/-- The words that a setting is written in. -/
def words (s : Setting) : List String :=
  match s.spelling with
  | .inline => ["--" ++ s.name ++ "=" ++ s.text]
  | .separate => ["--" ++ s.name, s.text]
  | .short c => ["-" ++ String.singleton c, s.text]
  | .bare => ["--" ++ s.name]
  | .bareShort c => ["-" ++ String.singleton c]

/-- The value that a setting gives its option. -/
def value (s : Setting) (spec : OptionSpec) : Value :=
  match spec.kind with
  | .string => .string s.text
  | .boolean => .bool (s.text = "true")

/-- Whether a setting of an option may be written as it is. The value stands in a word of its own
only for an option that takes a text, and is left out only where a boolean option is set to true. -/
def MaySpell (schema : OptionSchema) (spec : OptionSpec) (s : Setting) : Prop :=
  match s.spelling with
  | .inline => True
  | .separate => spec.kind = .string
  | .short c => spec.kind = .string ∧ schema.Designates c s.name
  | .bare => spec.kind = .boolean ∧ s.text = "true"
  | .bareShort c => spec.kind = .boolean ∧ s.text = "true" ∧ schema.Designates c s.name

/-- A setting of an option of the schema, in a way of writing it that the option accepts. -/
structure Accepted (schema : OptionSchema) (spec : OptionSpec) (s : Setting) : Prop where
  found : schema.options.find? s.name = some spec
  truth : spec.kind = .boolean → s.text = "true" ∨ s.text = "false"
  maySpell : s.MaySpell schema spec

end Setting

/-- The values that settings give an option, in order. -/
def given (spec : OptionSpec) (name : String) (settings : List Setting) : List Value :=
  (settings.filter fun s => s.name = name).map fun s => s.value spec

/-- What settings amount to for a name : nothing if no setting is of that option, else the array of
the values it is given if it may be given more than once, and the last of them if not. -/
def outcome (schema : OptionSchema) (settings : List Setting) (name : String) : Option Value :=
  match schema.options.find? name with
  | none => none
  | some spec =>
    if spec.multiple then
      if given spec name settings = [] then none else some (.array (given spec name settings))
    else (given spec name settings).getLast?

/-- Fields that hold just what settings amount to. -/
structure Holds (schema : OptionSchema) (settings : List Setting) (values : Fields) : Prop where
  sorted : values.Sorted
  find? : ∀ name, Fields.find? values name = outcome schema settings name

/-! ## The words of one setting -/

variable {schema : OptionSchema} {spec : OptionSpec} {s : Setting}

theorem ofWord_inline (schema : OptionSchema) {name : String} (text : String)
    (h : '=' ∉ name.toList) :
    Flag.ofWord schema ("--" ++ name ++ "=" ++ text) = .ok ⟨name, some text⟩ := by
  have hword : ("--" ++ name ++ "=" ++ text).toList =
      '-' :: '-' :: (name.toList ++ '=' :: text.toList) := by
    simp [String.toList_append]
  unfold Flag.ofWord
  rw [hword]
  simp only [Flag.ofLong, Text.splitFirst_append h, String.ofList_toList]

theorem ofWord_long (schema : OptionSchema) {name : String} (h : '=' ∉ name.toList) :
    Flag.ofWord schema ("--" ++ name) = .ok ⟨name, none⟩ := by
  have hword : ("--" ++ name).toList = '-' :: '-' :: name.toList := by
    simp [String.toList_append]
  unfold Flag.ofWord
  rw [hword]
  simp only [Flag.ofLong, Text.splitFirst_eq_none h, String.ofList_toList]

theorem ofWord_short {c : Char} {name : String} (hdash : c ≠ '-')
    (h : schema.named? (String.singleton c) = some name) :
    Flag.ofWord schema ("-" ++ String.singleton c) = .ok ⟨name, none⟩ := by
  have hword : ("-" ++ String.singleton c).toList = ['-', c] := by
    simp
  unfold Flag.ofWord
  rw [hword]
  split
  · rename_i heq
    exact absurd (List.cons.inj (List.cons.inj heq).2).1 hdash
  · rename_i heq
    obtain rfl := (List.cons.inj (List.cons.inj heq).2).1
    rw [h]
  · rename_i hno
    exact absurd rfl (hno c)

/-- The words of a setting add the value of the setting, whatever words follow. A value in a word
of its own is not looked at, so that it may itself look like an option. -/
theorem readFlagsOnto_words (h : s.Accepted schema spec) (hname : '=' ∉ s.name.toList)
    (values : Fields) (rest : List String) :
    readFlagsOnto schema values (s.words ++ rest) =
      readFlagsOnto schema (withValue values spec s.name (s.value spec)) rest := by
  obtain ⟨name, text, spelling⟩ := s
  obtain ⟨hfound, htruth, hspell⟩ := h
  simp only at hfound htruth hname
  cases spelling with
  | inline =>
    rw [Setting.words, List.singleton_append, readFlagsOnto, ofWord_inline schema text hname]
    simp only [hfound, Setting.value]
    cases hkind : spec.kind with
    | string => rfl
    | boolean =>
      rcases htruth hkind with rfl | rfl
      · simp [Flag.booleanValue]
      · simp [Flag.booleanValue]
  | separate =>
    have hkind : spec.kind = .string := hspell
    simp only [Setting.words, List.cons_append, List.nil_append, readFlagsOnto,
      ofWord_long schema hname, hfound, hkind, Setting.value]
  | short c =>
    obtain ⟨hkind, hshort⟩ : spec.kind = .string ∧ schema.Designates c name := hspell
    simp only [Setting.words, List.cons_append, List.nil_append, readFlagsOnto,
      ofWord_short hshort.ne_dash hshort.named?, hfound, hkind, Setting.value]
  | bare =>
    obtain ⟨hkind, rfl⟩ : spec.kind = .boolean ∧ text = "true" := hspell
    simp only [Setting.words, List.singleton_append, readFlagsOnto, ofWord_long schema hname,
      hfound, hkind, Flag.booleanValue, Setting.value, decide_true]
  | bareShort c =>
    obtain ⟨hkind, rfl, hshort⟩ :
      spec.kind = .boolean ∧ text = "true" ∧ schema.Designates c name := hspell
    simp only [Setting.words, List.singleton_append, readFlagsOnto,
      ofWord_short hshort.ne_dash hshort.named?, hfound, hkind, Flag.booleanValue, Setting.value,
      decide_true]

/-! ## What has been read so far -/

theorem given_append_of_ne {name : String} {settings : List Setting} (spec : OptionSpec)
    (h : name ≠ s.name) : given spec name (settings ++ [s]) = given spec name settings := by
  simp [given, List.filter_append, Ne.symm h]

theorem given_append_self (spec : OptionSpec) (settings : List Setting) (s : Setting) :
    given spec s.name (settings ++ [s]) = given spec s.name settings ++ [s.value spec] := by
  simp [given, List.filter_append]

theorem outcome_append_of_ne {name : String} (settings : List Setting) (h : name ≠ s.name) :
    outcome schema (settings ++ [s]) name = outcome schema settings name := by
  unfold outcome
  simp only [given_append_of_ne _ h]

theorem outcome_append_self (settings : List Setting)
    (h : schema.options.find? s.name = some spec) :
    outcome schema (settings ++ [s]) s.name =
      some (if spec.multiple then collected (outcome schema settings s.name) (s.value spec)
        else s.value spec) := by
  simp only [outcome, h, given_append_self]
  by_cases hmultiple : spec.multiple = true
  · simp only [hmultiple, if_true]
    by_cases hnone : given spec s.name settings = []
    · simp [hnone, collected]
    · simp [hnone, collected]
  · simp [hmultiple]

/-- One more value is what one more setting amounts to. -/
theorem Holds.withValue {settings : List Setting} {values : Fields}
    (h : Holds schema settings values) (hfound : schema.options.find? s.name = some spec) :
    Holds schema (settings ++ [s]) (withValue values spec s.name (s.value spec)) := by
  have hset : Command.withValue values spec s.name (s.value spec) =
      Fields.insert values s.name (if spec.multiple then
        collected (outcome schema settings s.name) (s.value spec) else s.value spec) := by
    rw [Command.withValue, ← h.find?]
    split <;> rfl
  rw [hset]
  refine ⟨h.sorted.insert _ _, fun name => ?_⟩
  by_cases hname : name = s.name
  · subst hname
    rw [Fields.find?_insert_self, outcome_append_self settings hfound]
  · rw [Fields.find?_insert_of_ne _ hname, h.find?, outcome_append_of_ne settings hname]

/-- The run of the reader over settings that are still to come. The induction is on them, with the
values and the settings they come from free. -/
theorem readFlagsOnto_flatMap (hname : ∀ name ∈ schema.options.keys, '=' ∉ name.toList) :
    ∀ {settings before : List Setting} {values : Fields}, Holds schema before values →
      (∀ s ∈ settings, ∃ spec, s.Accepted schema spec) →
      ∃ result, readFlagsOnto schema values (settings.flatMap Setting.words) = .ok result ∧
        Holds schema (before ++ settings) result
  | [], before, values, h, _ => by
    rw [List.append_nil]
    exact ⟨values, rfl, h⟩
  | s :: settings, before, values, h, hall => by
    obtain ⟨spec, hs⟩ := hall s List.mem_cons_self
    have hkey : s.name ∈ schema.options.keys := by
      rw [Table.mem_keys_iff, hs.found, Option.isSome_some]
    obtain ⟨result, hread, hholds⟩ := readFlagsOnto_flatMap hname (h.withValue hs.found)
      fun t ht => hall t (List.mem_cons_of_mem _ ht)
    refine ⟨result, ?_, by rwa [List.append_cons]⟩
    rw [List.flatMap_cons, readFlagsOnto_words hs (hname _ hkey), hread]

/-- Settings of options whose names have no equals sign, each written in a way that its option
accepts, are read, and what is read is what they amount to : the last setting of an option, or the
array of all its settings in order if it may be given more than once, and nothing else. -/
theorem readFlags_words {schema : OptionSchema} {settings : List Setting}
    (hname : ∀ name ∈ schema.options.keys, '=' ∉ name.toList)
    (h : ∀ s ∈ settings, ∃ spec, s.Accepted schema spec) :
    ∃ values, readFlags schema (settings.flatMap Setting.words) = .ok values ∧
      Holds schema settings values := by
  have hnil : Holds schema [] [] := by
    refine ⟨List.Pairwise.nil, fun name => ?_⟩
    unfold outcome given
    cases schema.options.find? name with
    | none => rfl
    | some spec => simp [Fields.find?]
  exact readFlagsOnto_flatMap hname hnil h

/-- A path with the short name `p`, filters of which there may be several, and a switch. -/
def portOptions : OptionSchema where
  options :=
    [("path", { kind := .string, multiple := false, short := some "p" }),
      ("filters", { kind := .string, multiple := true }),
      ("logDiff", { kind := .boolean, multiple := false, short := some "l" })]
  placement := []

/-- Settings in every way of writing, one with a text that looks like an option. -/
def portSettings : List Setting :=
  [⟨"path", "/dev/null", .separate⟩, ⟨"filters", "--logDiff", .separate⟩,
    ⟨"logDiff", "true", .bareShort 'l'⟩, ⟨"logDiff", "false", .inline⟩,
    ⟨"filters", "a=b", .inline⟩, ⟨"path", "/dev/tty", .short 'p'⟩, ⟨"logDiff", "true", .bare⟩]

theorem readFlags_words_mixed :
    (∀ name ∈ portOptions.options.keys, '=' ∉ name.toList) ∧
      (∀ s ∈ portSettings, ∃ spec, s.Accepted portOptions spec) ∧
      portSettings.flatMap Setting.words = ["--path", "/dev/null", "--filters", "--logDiff", "-l",
        "--logDiff=false", "--filters=a=b", "-p", "/dev/tty", "--logDiff"] ∧
      (∃ values, readFlags portOptions (portSettings.flatMap Setting.words) = .ok values ∧
        Holds portOptions portSettings values) ∧
      outcome portOptions portSettings "path" = some (.string "/dev/tty") ∧
      outcome portOptions portSettings "filters" =
        some (.array [.string "--logDiff", .string "a=b"]) ∧
      outcome portOptions portSettings "logDiff" = some (.bool true) := by
  have hname : ∀ name ∈ portOptions.options.keys, '=' ∉ name.toList := by
    simp [portOptions, Table.keys]
  have hp : portOptions.Designates 'p' "path" :=
    ⟨by decide, ⟨_, rfl, rfl⟩, by decide⟩
  have hl : portOptions.Designates 'l' "logDiff" :=
    ⟨by decide, ⟨_, rfl, rfl⟩, by decide⟩
  have hsettings : ∀ s ∈ portSettings, ∃ spec, s.Accepted portOptions spec := by
    have hstring : OptionKind.string ≠ .boolean := by decide
    simp only [portSettings, List.forall_mem_cons]
    refine ⟨⟨_, rfl, (absurd · hstring), rfl⟩, ⟨_, rfl, (absurd · hstring), rfl⟩,
      ⟨_, rfl, fun _ => .inl rfl, rfl, rfl, hl⟩, ⟨_, rfl, fun _ => .inr rfl, trivial⟩,
      ⟨_, rfl, (absurd · hstring), trivial⟩, ⟨_, rfl, (absurd · hstring), rfl, hp⟩,
      ⟨_, rfl, fun _ => .inl rfl, rfl, rfl⟩, List.forall_mem_nil _⟩
  exact ⟨hname, hsettings, rfl, readFlags_words hname hsettings, rfl, rfl, rfl⟩

end Command

end CallContract

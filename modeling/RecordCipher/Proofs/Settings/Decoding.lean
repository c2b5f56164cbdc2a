import RecordCipher.Proofs.Settings.Layout

/-!
# Settings are decoded however they are laid out

Settings can be written as an object with its members in any order, or as an array of the first
members in the order of their declaration. A member whose value is the usual one can be left out,
and what is not there can be written as `null`; the limits and the filter have the same freedom,
except that a filter has no usual members. Whatever form is taken, with whatever blanks and
escapes, the document is decoded to the settings.

## Main definitions

* `Settings.entries`, `Limits.entries`, `Filter.entries`: how the members are written
* `Settings.LaidOut`: the values that lay out settings
* `SpellsDocument`: a document is a text of a value

## Main results

* `Reader.reads_filter`, `Reader.reads_limits`: the nested structures
* `settingsLayout_serves`: every member of settings is read into its own part of the draft
* `Settings.parse_of_laidOut`: a document that lays out settings is decoded to them
-/

namespace RecordCipher

/-! ## Filters -/

namespace Filter

variable (f : Filter)

/-- The members of a filter. None of them can be left out. -/
def entries : List Entry :=
  [{ name := "field", admits := (· = .string f.field), omissible := False },
   { name := "equals", admits := (· = .string f.equals), omissible := False }]

/-- The values that lay out a filter. -/
def LaidOut (value : Json) : Prop := RecordCipher.LaidOut f.entries value

/-- The draft of a filter of which some members were given. -/
def draft (given : List String) : FilterDraft where
  field := drafted given "field" f.field
  equals := drafted given "equals" f.equals

end Filter

theorem filterLayout_serves (f : Filter) : filterLayout.Serves f.entries f.draft where
  nodup := by decide
  serves := by
    refine .cons ?_ (.cons ?_ .nil)
    · refine Member.serves_of_reads (b := f.field) rfl nofun (by simp [Filter.draft])
        (fun _ => rfl) (by simp [Filter.draft, drafted_cons_of_ne]) ?_
      rintro _ rfl
      exact Reader.reads_string _ _
    · refine Member.serves_of_reads (b := f.equals) rfl nofun (by simp [Filter.draft])
        (fun _ => rfl) (by simp [Filter.draft, drafted_cons_of_ne]) ?_
      rintro _ rfl
      exact Reader.reads_string _ _

theorem Reader.reads_filter {f : Filter} {value : Json} (h : f.LaidOut value) :
    Reads Reader.filter value f := by
  obtain ⟨given, complete, hread⟩ := (filterLayout_serves f).reads h
  obtain ⟨hfield | ⟨⟨⟩⟩, hequals | ⟨⟨⟩⟩⟩ :
      ("field" ∈ given ∨ False) ∧ ("equals" ∈ given ∨ False) := by
    simpa [Complete, Filter.entries] using complete
  have hfinish :
      Filter.mk ((f.draft given).field.getD "") ((f.draft given).equals.getD "") = f := by
    simp only [Filter.draft, getD_drafted (.inl hfield), getD_drafted (.inl hequals)]
  exact hread.bind_pure (f := fun draft => Filter.mk (draft.field.getD "") (draft.equals.getD ""))
    hfinish

/-! ## Limits -/

namespace Limits

variable (limits : Limits)

/-- The members of limits. Those that are the usual limits can be left out. -/
def entries : List Entry :=
  [{ name := "max_expression_len", admits := (· = .number (.int limits.maxLength)),
     omissible := limits.maxLength = ({} : Limits).maxLength },
   { name := "max_tasks", admits := (· = .number (.int limits.maxTasks)),
     omissible := limits.maxTasks = ({} : Limits).maxTasks }]

/-- The values that lay out limits. -/
def LaidOut (value : Json) : Prop := RecordCipher.LaidOut limits.entries value

/-- The draft of limits of which some members were given. -/
def draft (given : List String) : LimitsDraft where
  maxLength := drafted given "max_expression_len" limits.maxLength
  maxTasks := drafted given "max_tasks" limits.maxTasks

/-- Both limits are machine words. -/
structure WordSized : Prop where
  /-- The length is one. -/
  maxLength : limits.maxLength < UInt64.size
  /-- The number of tasks is one. -/
  maxTasks : limits.maxTasks < UInt64.size

end Limits

theorem limitsLayout_serves {limits : Limits} (sized : limits.WordSized) :
    limitsLayout.Serves limits.entries limits.draft where
  nodup := by decide
  serves := by
    refine .cons ?_ (.cons ?_ .nil)
    · refine Member.serves_of_reads (b := limits.maxLength) rfl (fun _ => rfl)
        (by simp [Limits.draft]) (fun _ => rfl) (by simp [Limits.draft, drafted_cons_of_ne]) ?_
      rintro _ rfl
      exact Reader.reads_word sized.maxLength
    · refine Member.serves_of_reads (b := limits.maxTasks) rfl (fun _ => rfl)
        (by simp [Limits.draft]) (fun _ => rfl) (by simp [Limits.draft, drafted_cons_of_ne]) ?_
      rintro _ rfl
      exact Reader.reads_word sized.maxTasks

theorem Reader.reads_limits {limits : Limits} (sized : limits.WordSized) {value : Json}
    (h : limits.LaidOut value) : Reads Reader.limits value limits := by
  obtain ⟨given, complete, hread⟩ := (limitsLayout_serves sized).reads h
  obtain ⟨hlength, htasks⟩ :
      ("max_expression_len" ∈ given ∨ limits.maxLength = ({} : Limits).maxLength) ∧
      ("max_tasks" ∈ given ∨ limits.maxTasks = ({} : Limits).maxTasks) := by
    simpa [Complete, Limits.entries] using complete
  have hfinish : (limits.draft given).finish = limits := by
    simp only [LimitsDraft.finish, Limits.draft, getD_drafted hlength, getD_drafted htasks]
  exact hread.bind_pure hfinish

/-! ## Settings -/

/-- The values of a member that need not be there: `null` when it is not. -/
def OrNull {β : Type} (admits : β → Json → Prop) : Option β → Json → Prop
  | some b, value => admits b value
  | none, value => value = .null

/-- A member that need not be there is read when what can be there is, which is not `null`. -/
theorem Reader.reads_optional {β : Type} {read : Reader β} {admits : β → Json → Prop} {o : Option β}
    (reads : ∀ b ∈ o, ∀ value, admits b value → value ≠ .null ∧ Reads read value b) {value : Json}
    (h : OrNull admits o value) : Reads (Reader.optional read) value o := by
  cases o with
  | none =>
    cases h
    exact reads_optional_null read
  | some b =>
    obtain ⟨hvalue, hread⟩ := reads b rfl value h
    exact reads_optional_some hread hvalue

namespace Settings

variable (c : Settings)

/-- The members of settings. Those that have their usual values can be left out. -/
def entries : List Entry :=
  [{ name := "fields", admits := (· = .array (c.fields.map .string)), omissible := False },
   { name := "mode", admits := (· = .string c.mode.name), omissible := False },
   { name := "output_encoding", admits := (· = .string c.encoding.name),
     omissible := c.encoding = .string },
   { name := "condition", admits := OrNull Filter.LaidOut c.filter, omissible := c.filter = none },
   { name := "limits", admits := OrNull Limits.LaidOut c.limits, omissible := c.limits = none },
   { name := "threads",
     admits := OrNull (fun (n : Nat) value => value = .number (.int n)) c.threads,
     omissible := c.threads = none }]

/-- The values that lay out settings. -/
def LaidOut (value : Json) : Prop := RecordCipher.LaidOut c.entries value

/-- The draft of settings of which some members were given. -/
def draft (given : List String) : SettingsDraft where
  fields := drafted given "fields" c.fields
  mode := drafted given "mode" c.mode
  encoding := drafted given "output_encoding" c.encoding
  filter := drafted given "condition" c.filter
  limits := drafted given "limits" c.limits
  threads := drafted given "threads" c.threads

/-- The numbers of settings are machine words. -/
structure WordSized : Prop where
  /-- The limits are, if there are any. -/
  limits : ∀ limits ∈ c.limits, limits.WordSized
  /-- The number of threads is, if there is one. -/
  threads : ∀ n ∈ c.threads, n < UInt64.size

end Settings

/-- Every member of settings is read into its own part of the draft. -/
theorem settingsLayout_serves {c : Settings} (sized : c.WordSized) :
    settingsLayout.Serves c.entries c.draft where
  nodup := by decide
  serves := by
    refine .cons ?fields (.cons ?mode (.cons ?encoding (.cons ?filter (.cons ?limits
      (.cons ?threads .nil)))))
    case fields =>
      refine Member.serves_of_reads (b := c.fields) rfl nofun (by simp [Settings.draft])
        (fun _ => rfl) (by simp [Settings.draft, drafted_cons_of_ne]) ?_
      rintro _ rfl
      exact Reader.reads_strings c.fields
    case mode =>
      refine Member.serves_of_reads (b := c.mode) rfl nofun (by simp [Settings.draft])
        (fun _ => rfl) (by simp [Settings.draft, drafted_cons_of_ne]) ?_
      rintro _ rfl
      exact Reader.reads_choice (by cases c.mode <;> rfl)
    case encoding =>
      refine Member.serves_of_reads (b := c.encoding) rfl (fun _ => rfl) (by simp [Settings.draft])
        (fun _ => rfl) (by simp [Settings.draft, drafted_cons_of_ne]) ?_
      rintro _ rfl
      exact Reader.reads_choice (by cases c.encoding <;> rfl)
    case filter =>
      refine Member.serves_of_reads (b := c.filter) rfl (fun _ => rfl) (by simp [Settings.draft])
        (fun _ => rfl) (by simp [Settings.draft, drafted_cons_of_ne]) ?_
      intro value hvalue
      exact Reader.reads_optional (fun f _ value hf => ⟨hf.ne_null, Reader.reads_filter hf⟩) hvalue
    case limits =>
      refine Member.serves_of_reads (b := c.limits) rfl (fun _ => rfl) (by simp [Settings.draft])
        (fun _ => rfl) (by simp [Settings.draft, drafted_cons_of_ne]) ?_
      intro value hvalue
      exact Reader.reads_optional
        (fun l hl value h => ⟨h.ne_null, Reader.reads_limits (sized.limits l hl) h⟩) hvalue
    case threads =>
      refine Member.serves_of_reads (b := c.threads) rfl (fun _ => rfl) (by simp [Settings.draft])
        (fun _ => rfl) (by simp [Settings.draft, drafted_cons_of_ne]) ?_
      intro value hvalue
      refine Reader.reads_optional (fun n hn value h => ?_) hvalue
      subst h
      exact ⟨nofun, Reader.reads_word (sized.threads n hn)⟩

/-- A complete draft stands for the settings. -/
theorem Settings.finish_draft {c : Settings} {given : List String} (h : Complete c.entries given) :
    (c.draft given).finish = c := by
  obtain ⟨hfields | ⟨⟨⟩⟩, hmode | ⟨⟨⟩⟩, hencoding, hfilter, hlimits, hthreads⟩ :
      ("fields" ∈ given ∨ False) ∧ ("mode" ∈ given ∨ False) ∧
      ("output_encoding" ∈ given ∨ c.encoding = .string) ∧
      ("condition" ∈ given ∨ c.filter = none) ∧ ("limits" ∈ given ∨ c.limits = none) ∧
      ("threads" ∈ given ∨ c.threads = none) := by
    simpa [Complete, Settings.entries] using h
  simp only [SettingsDraft.finish, Settings.draft, getD_drafted (.inl hfields),
    getD_drafted (.inl hmode), getD_drafted hencoding, getD_drafted hfilter, getD_drafted hlimits,
    getD_drafted hthreads]

/-- A document is a text of a value, with blanks around it. -/
def SpellsDocument (document : String) (value : Json) : Prop :=
  ∃ chars trailing, Spells chars value ∧ Blank trailing ∧ document.toList = chars ++ trailing

/-- A document that lays out settings is decoded to them: neither the order of the members nor the
form of the structures matters, nor whether usual values are written, nor how the parts of the
document are spelled. -/
theorem Settings.parse_of_laidOut {c : Settings} (sized : c.WordSized) {value : Json}
    (laidOut : c.LaidOut value) {document : String} (spelled : SpellsDocument document value) :
    Settings.parse document = .ok c := by
  obtain ⟨given, complete, hread⟩ := (settingsLayout_serves sized).reads laidOut
  obtain ⟨chars, trailing, spelled, blank, hdocument⟩ := spelled
  have hsettings : Reader.settings (chars ++ trailing) = .ok (c, []) := by
    have := Reader.bind_eq (hread chars trailing spelled blank.ends) fun draft =>
      Reader.finish >>= fun _ => pure draft.finish
    rw [Reader.bind_eq (Reader.finish_eq blank), Settings.finish_draft complete] at this
    exact this
  rw [Settings.parse, hdocument, hsettings]
  rfl

/-- Members in another order, an escape, no encoding, no threads, and limits as an array without
its last element. -/
theorem Settings.parse_of_laidOut_reordered :
    Settings.parse ("\x7b\"threads\": null, \"limits\": [8], \"mode\": \"decrypt\", " ++
      "\"condition\": \x7b\"equals\": \"x\", \"field\": \"$.k\"\x7d, " ++
      "\"fields\": [\"$.\\u0061\"]\x7d") =
      .ok { fields := ["$.a"], mode := .decrypt, filter := some ⟨"$.k", "x"⟩,
            limits := some { maxLength := 8 } } := by
  have limits : Limits.LaidOut { maxLength := 8 } (.array [.number (.int 8)]) :=
    .array (show [_] ++ [_] = Limits.entries _ from rfl) (.cons rfl .nil) (by simp)
  have filter : Filter.LaidOut ⟨"$.k", "x"⟩
      (.object [("equals", .string "x"), ("field", .string "$.k")]) :=
    .object (by decide) (by simp [Filter.entries]) (by simp [Complete, Filter.entries])
  have settings : Settings.LaidOut
      { fields := ["$.a"], mode := .decrypt, filter := some ⟨"$.k", "x"⟩,
        limits := some { maxLength := 8 } }
      (.object [("threads", .null), ("limits", .array [.number (.int 8)]),
        ("mode", .string "decrypt"),
        ("condition", .object [("equals", .string "x"), ("field", .string "$.k")]),
        ("fields", .array [.string "$.a"])]) := by
    refine .object (by decide) ?_ (by simp [Complete, Settings.entries])
    simpa [Settings.entries, OrNull, Mode.name] using ⟨limits, filter⟩
  have blank : Blank [' '] := by simp [Blank, isJsonBlank]
  have eight : Nat.toDigits 10 8 = ['8'] := by decide
  have code : SpelledChar ['\\', 'u', '0', '0', '6', '1'] 'a' := by
    refine .code (@SpelledCode.digits _ _ _ _ 0 0 6 1 ?_ ?_ ?_ ?_) <;> decide
  have escaped : Spells ['"', '$', '.', '\\', 'u', '0', '0', '6', '1', '"'] (.string "$.a") :=
    .string blank_nil
      (.cons (.plain (c := '$') rfl) (.cons (.plain (c := '.') rfl) (.cons code .nil)))
  have spelled := Spells.object blank_nil
    (.cons .first (.plain blank_nil "threads" rfl) blank_nil (.null blank)
    (.cons (.comma blank_nil) (.plain blank "limits" rfl) blank_nil
      (.array blank (.cons .first (.number blank_nil 8) (.nil blank_nil)))
    (.cons (.comma blank_nil) (.plain blank "mode" rfl) blank_nil
      (.plain blank "decrypt" rfl)
    (.cons (.comma blank_nil) (.plain blank "condition" rfl) blank_nil
      (.object blank
        (.cons .first (.plain blank_nil "equals" rfl) blank_nil
          (.plain blank "x" rfl)
        (.cons (.comma blank_nil) (.plain blank "field" rfl) blank_nil
          (.plain blank "$.k" rfl) (.nil blank_nil))))
    (.cons (.comma blank_nil) (.plain blank "fields" rfl) blank_nil
      (.array blank (.cons .first escaped (.nil blank_nil))) (.nil blank_nil))))))
  refine Settings.parse_of_laidOut ⟨?_, by simp⟩ settings
    ⟨_, [], spelled, blank_nil, by simp [eight]⟩
  rintro _ ⟨⟩
  constructor <;> decide

end RecordCipher

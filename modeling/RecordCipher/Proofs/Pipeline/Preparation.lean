import Mathlib.Data.List.Forall2
import Mathlib.Data.List.Nodup
import RecordCipher.Pipeline.Basic
import RecordCipher.Proofs.Computation
import RecordCipher.Proofs.Expression.Grammar

/-!
# Setting a pipeline up

The texts of the fields are gone through twice: when settings are checked, and when the plans of
the distinct ones are made. Both times the first text that is no expression decides, so that what
passes the check has its plans. For either flavor the plans stand in the order in which their texts
are mentioned first, and the index leads from each text to the plan that was made of it.

## Main definitions

* `FlavorPlans.Exact`: each text with its plan, and with its position in the index
* `FieldSelector.Exact`: distinct texts, with their plans for either flavor

## Main results

* `FieldSelector.Exact.push`, `FieldSelector.exact_of_compileUnseen`: one more text, and all of them
* `FlavorPlans.Exact.find?_eq_some_iff`: looking a plan up
* `FieldSelector.verdict_compile`: making plans fails as checking the texts does
* `Settings.checkExpressions_eq_error_iff`: the first text that is no expression
* `FieldPlans.nodup_of_compile`, `FieldPlans.mem_compile`, `FieldPlans.compile_unique`: the plans
  are those of the distinct texts, and limits do not change them
* `Prepared.ofSettings_of_validate`: what passes the check can be prepared
* `Pipeline.preparation_exact`: what is set up for texts and settings, and when
-/

namespace RecordCipher

namespace Plan

theorem expression_of_compileWithin {limits : Limits} {text : String} {plan : Plan}
    (h : compileWithin limits text = .ok plan) : plan.expression = text := by
  obtain ⟨e, he, rfl⟩ := map_eq_ok_iff.mp h
  exact (Expression.readWithin_eq_ok_iff.mp (mapError_eq_ok_iff.mp he)).2.1

/-- Limits decide whether a text has a plan, and not which. -/
theorem compileWithin_unique {limits limits' : Limits} {text : String} {plan plan' : Plan}
    (h : compileWithin limits text = .ok plan) (h' : compileWithin limits' text = .ok plan') :
    plan = plan' := by
  obtain ⟨e, he, rfl⟩ := map_eq_ok_iff.mp h
  obtain ⟨e', he', rfl⟩ := map_eq_ok_iff.mp h'
  obtain ⟨-, hsource, ⟨tokens, htokens, hderives⟩, -⟩ :=
    Expression.readWithin_eq_ok_iff.mp (mapError_eq_ok_iff.mp he)
  obtain ⟨-, hsource', ⟨tokens', htokens', hderives'⟩, -⟩ :=
    Expression.readWithin_eq_ok_iff.mp (mapError_eq_ok_iff.mp he')
  obtain rfl : tokens = tokens' := Except.ok.inj (htokens.symm.trans htokens')
  rw [Expression.plan, Expression.plan, Expression.tasks, Expression.tasks,
    hderives.unique hderives', hsource, hsource']

end Plan

/-! ## Plans of distinct texts -/

/-- Where keys come once, looking one up finds what it stands with. -/
theorem lookup_eq_some_iff_mem {β : Type} {entries : List (String × β)}
    (nodup : (entries.map Prod.fst).Nodup) (key : String) (value : β) :
    entries.lookup key = some value ↔ (key, value) ∈ entries := by
  induction entries with
  | nil => simp
  | cons entry rest ih =>
    obtain ⟨first, old⟩ := entry
    obtain ⟨absent, nodup'⟩ := List.nodup_cons.mp nodup
    by_cases heq : key = first
    · subst heq
      have hfresh : (key, value) ∉ rest := fun hm => absent (List.mem_map.mpr ⟨_, hm, rfl⟩)
      simp [hfresh, eq_comm (a := value)]
    · have hne : (key == first) = false := beq_false_of_ne heq
      simp [List.lookup_cons, hne, heq, ih nodup']

namespace FlavorPlans

/-- Texts, each with the plan that is made of it, and with its position in the index. -/
structure Exact (limits : Limits) (texts : List String) (p : FlavorPlans) : Prop where
  /-- The plans are those of the texts, in their order. -/
  compiled : List.Forall₂ (fun text plan => Plan.compileWithin limits text = .ok plan) texts p.plans
  /-- The index lists the texts with their positions, from the last one to the first. -/
  indexed : p.index = texts.zipIdx.reverse

section

variable {limits : Limits} {texts : List String} {p : FlavorPlans} {text : String}

/-- One more text is added with its plan. -/
theorem Exact.push (h : p.Exact limits texts) {e : Expression}
    (he : Expression.parseWithin limits text = .ok e) :
    (p.push e).Exact limits (texts ++ [text]) := by
  have hplan : Plan.compileWithin limits text = .ok e.plan := map_eq_ok_iff.mpr ⟨e, he, rfl⟩
  have hsource : e.source = text := Plan.expression_of_compileWithin hplan
  refine ⟨List.rel_append h.compiled (.cons hplan .nil), ?_⟩
  rw [FlavorPlans.push, h.indexed, List.zipIdx_append, List.reverse_append, hsource,
    h.compiled.length_eq]
  simp

/-- The plan at the position of a text is the one that is made of it. -/
theorem Exact.getElem? (h : p.Exact limits texts) {i : Nat} (hi : texts[i]? = some text) :
    ∃ plan, p.plans[i]? = some plan ∧ Plan.compileWithin limits text = .ok plan := by
  obtain ⟨hlt, rfl⟩ := List.getElem?_eq_some_iff.mp hi
  have hlt' : i < p.plans.length := h.compiled.length_eq ▸ hlt
  exact ⟨p.plans[i], List.getElem?_eq_getElem hlt', h.compiled.get hlt hlt'⟩

/-- Among distinct texts the index leads to the plan that is made of a text. -/
theorem Exact.find?_eq_some_iff (h : p.Exact limits texts) (nodup : texts.Nodup) (text : String)
    (plan : Plan) :
    p.find? text = some plan ↔ text ∈ texts ∧ Plan.compileWithin limits text = .ok plan := by
  have hindex : ∀ i, p.index.lookup text = some i ↔ texts[i]? = some text := by
    intro i
    rw [h.indexed, lookup_eq_some_iff_mem ?_ text i, List.mem_reverse,
      List.mk_mem_zipIdx_iff_getElem?]
    rwa [List.map_reverse, List.zipIdx_map_fst, List.nodup_reverse]
  simp only [find?, Option.bind_eq_some_iff, hindex]
  constructor
  · rintro ⟨i, hi, hplan⟩
    obtain ⟨plan', hplan', hcompile⟩ := h.getElem? hi
    obtain rfl : plan = plan' := Option.some.inj (hplan.symm.trans hplan')
    exact ⟨List.mem_of_getElem? hi, hcompile⟩
  · rintro ⟨hm, hcompile⟩
    obtain ⟨i, hi⟩ := List.mem_iff_getElem?.mp hm
    obtain ⟨plan', hplan', hcompile'⟩ := h.getElem? hi
    obtain rfl : plan = plan' := Plan.compileWithin_unique hcompile hcompile'
    exact ⟨i, hi, hplan'⟩

/-- The plans are made of their own texts. -/
theorem Exact.map_expression (h : p.Exact limits texts) : p.plans.map Plan.expression = texts := by
  have hsame : List.Forall₂ (· = ·) texts (p.plans.map Plan.expression) := by
    rw [List.forall₂_map_right_iff]
    exact h.compiled.imp fun text plan hplan => (Plan.expression_of_compileWithin hplan).symm
  rw [List.forall₂_eq_eq_eq] at hsame
  exact hsame.symm

/-- Limits decide whether texts have plans, and not which. -/
theorem Exact.plans_unique {limits' : Limits} {p' : FlavorPlans} (h : p.Exact limits texts)
    (h' : p'.Exact limits' texts) : p.plans = p'.plans := by
  have unique : Relator.RightUnique fun text plan =>
      ∃ limits, Plan.compileWithin limits text = .ok plan := by
    rintro text plan plan' ⟨_, hplan⟩ ⟨_, hplan'⟩
    exact Plan.compileWithin_unique hplan hplan'
  exact List.right_unique_forall₂' unique (h.compiled.imp fun _ _ hplan => ⟨_, hplan⟩)
    (h'.compiled.imp fun _ _ hplan => ⟨_, hplan⟩)

end

end FlavorPlans

namespace FieldSelector

/-- Distinct texts, with their plans for either flavor. -/
structure Exact (limits : Limits) (s : FieldSelector) : Prop where
  /-- No text comes twice. -/
  nodup : s.expressions.Nodup
  /-- The plans for documents. -/
  generic : s.generic.Exact limits s.expressions
  /-- The plans for records with a schema. -/
  structured : s.structured.Exact limits s.expressions

section

variable {limits : Limits} {s out : FieldSelector} {texts seen : List String}

theorem exact_empty : Exact limits empty := ⟨List.nodup_nil, ⟨.nil, rfl⟩, ⟨.nil, rfl⟩⟩

/-- A new text is added with its plan. -/
theorem Exact.push (h : s.Exact limits) {text : String} (hnew : text ∉ s.expressions)
    {e : Expression} (he : Expression.parseWithin limits text = .ok e) :
    (s.push text e).Exact limits where
  nodup := by
    rw [FieldSelector.push, ← List.concat_eq_append, List.nodup_concat]
    exact ⟨hnew, h.nodup⟩
  generic := h.generic.push he
  structured := h.structured.push he

theorem Exact.flavor (h : s.Exact limits) (flavor : Flavor) :
    (s.flavor flavor).Exact limits s.expressions := by
  cases flavor with
  | generic => exact h.generic
  | structured => exact h.structured

/-- Going through texts adds those that were not seen before, at their first mention. -/
theorem exact_of_compileUnseen (h : s.Exact limits)
    (hseen : ∀ text, text ∈ seen ↔ text ∈ s.expressions)
    (hout : compileUnseen limits seen s texts = .ok out) :
    out.Exact limits ∧
      out.expressions = s.expressions ++ (texts.filter (· ∉ s.expressions)).eraseDups := by
  induction texts generalizing seen s with
  | nil =>
    obtain rfl : s = out := by simpa [compileUnseen] using hout
    exact ⟨h, by simp⟩
  | cons text rest ih =>
    rw [compileUnseen] at hout
    split at hout
    · next hm =>
      have hknown : text ∈ s.expressions := (hseen text).mp hm
      obtain ⟨hexact, hexpressions⟩ := ih h hseen hout
      exact ⟨hexact, by simpa [hknown] using hexpressions⟩
    · next hm =>
      have hnew : text ∉ s.expressions := (hseen text).not.mp hm
      obtain ⟨e, he, hout⟩ := bind_eq_ok_iff.mp hout
      obtain ⟨hexact, hexpressions⟩ := ih (h.push hnew he)
        (fun other => by simp [FieldSelector.push, hseen, or_comm]) hout
      -- what is left to be seen is what is left behind the first mention of the text
      have hothers : (rest.filter (· ∉ s.expressions)).filter (fun other => !other == text) =
          rest.filter (· ∉ (s.push text e).expressions) := by
        rw [List.filter_filter]
        refine List.filter_congr fun other _ => ?_
        by_cases heq : other = text <;> simp [FieldSelector.push, heq]
      refine ⟨hexact, ?_⟩
      rw [hexpressions, List.filter_cons_of_pos (by simpa using hnew), List.eraseDups_cons,
        hothers]
      simp [FieldSelector.push]

/-- Making plans fails as checking the texts does, where those that are passed over have been
found to be expressions. -/
theorem verdict_compileUnseen
    (hseen : ∀ text ∈ seen, ∃ e, Expression.parseWithin limits text = .ok e) :
    verdict (compileUnseen limits seen s texts) = Settings.checkExpressions limits texts := by
  induction texts generalizing seen s with
  | nil => rfl
  | cons text rest ih =>
    rw [compileUnseen, Settings.checkExpressions]
    split
    · next hm =>
      obtain ⟨e, he⟩ := hseen text hm
      rw [he]
      exact ih hseen
    · cases hparse : Expression.parseWithin limits text with
      | error e => rfl
      | ok e => exact ih (List.forall_mem_cons.mpr ⟨⟨e, hparse⟩, hseen⟩)

/-- Making plans fails as checking the texts does. -/
theorem verdict_compile (limits : Limits) (texts : List String) :
    verdict (compile limits texts) = Settings.checkExpressions limits texts :=
  verdict_compileUnseen (by simp)

/-- What is made of texts are the plans of the distinct ones, in the order of their first
mention. -/
theorem exact_of_compile (h : compile limits texts = .ok s) :
    s.Exact limits ∧ s.expressions = texts.eraseDups := by
  simpa [empty] using exact_of_compileUnseen exact_empty (by simp [empty]) h

theorem mem_expressions (h : compile limits texts = .ok s) (text : String) :
    text ∈ s.expressions ↔ text ∈ texts := by
  rw [(exact_of_compile h).2, List.mem_eraseDups]

end

end FieldSelector

namespace FieldPlans

section

variable {limits : Limits} {texts : List String} {fields : FieldPlans}

/-- The plans of a pipeline are those of distinct expressions. -/
theorem nodup_of_compile (h : compile limits texts = .ok fields) :
    (fields.plans.map Plan.expression).Nodup := by
  obtain ⟨s, hs, rfl⟩ := map_eq_ok_iff.mp h
  obtain ⟨hexact, -⟩ := FieldSelector.exact_of_compile hs
  rw [FieldSelector.fields, hexact.generic.map_expression]
  exact hexact.nodup

/-- All texts of a pipeline have plans. -/
theorem exists_plan_of_compile (h : compile limits texts = .ok fields) {text : String}
    (hm : text ∈ texts) : ∃ plan, Plan.compileWithin limits text = .ok plan := by
  obtain ⟨s, hs, rfl⟩ := map_eq_ok_iff.mp h
  obtain ⟨i, hi⟩ := List.mem_iff_getElem?.mp ((FieldSelector.mem_expressions hs text).mpr hm)
  obtain ⟨plan, -, hplan⟩ := (FieldSelector.exact_of_compile hs).1.generic.getElem? hi
  exact ⟨plan, hplan⟩

/-- The plans of a pipeline are those of its texts. -/
theorem mem_compile (h : compile limits texts = .ok fields) (plan : Plan) :
    plan ∈ fields.plans ↔ ∃ text ∈ texts, Plan.compileWithin limits text = .ok plan := by
  obtain ⟨s, hs, rfl⟩ := map_eq_ok_iff.mp h
  obtain ⟨hexact, -⟩ := FieldSelector.exact_of_compile hs
  simp only [← FieldSelector.mem_expressions hs]
  constructor
  · intro hm
    obtain ⟨i, hlt, rfl⟩ := List.mem_iff_getElem.mp hm
    have hlt' : i < s.expressions.length := hexact.generic.compiled.length_eq ▸ hlt
    exact ⟨s.expressions[i], List.getElem_mem hlt', hexact.generic.compiled.get hlt' hlt⟩
  · rintro ⟨text, hm, hplan⟩
    obtain ⟨i, hi⟩ := List.mem_iff_getElem?.mp hm
    obtain ⟨plan', hi', hplan'⟩ := hexact.generic.getElem? hi
    obtain rfl := Plan.compileWithin_unique hplan hplan'
    exact List.mem_of_getElem? hi'

/-- Limits decide whether texts have plans, and not which. -/
theorem compile_unique {limits' : Limits} {fields' : FieldPlans}
    (h : compile limits texts = .ok fields) (h' : compile limits' texts = .ok fields') :
    fields = fields' := by
  obtain ⟨s, hs, rfl⟩ := map_eq_ok_iff.mp h
  obtain ⟨s', hs', rfl⟩ := map_eq_ok_iff.mp h'
  obtain ⟨hexact, hexpressions⟩ := FieldSelector.exact_of_compile hs
  obtain ⟨hexact', hexpressions'⟩ := FieldSelector.exact_of_compile hs'
  have hplans := (hexpressions ▸ hexact.generic).plans_unique (hexpressions' ▸ hexact'.generic)
  rw [FieldSelector.fields, FieldSelector.fields, hplans]

end

end FieldPlans

/-! ## Checking and preparing settings -/

namespace Settings

/-- Texts are refused for the first of them that is no expression. -/
theorem checkExpressions_eq_error_iff {limits : Limits} {texts : List String} {e : ParseError} :
    checkExpressions limits texts = .error e ↔ ∃ before text behind,
      texts = before ++ text :: behind ∧
      (∀ earlier ∈ before, ∃ found, Expression.parseWithin limits earlier = .ok found) ∧
      Expression.parseWithin limits text = .error e := by
  induction texts with
  | nil => simp [checkExpressions]
  | cons text rest ih =>
    rw [checkExpressions]
    cases hparse : Expression.parseWithin limits text with
    | error e' =>
      constructor
      · rintro ⟨⟩
        exact ⟨[], text, rest, rfl, by simp, hparse⟩
      · rintro ⟨before, other, behind, heq, hbefore, hother⟩
        cases before with
        | nil =>
          cases heq
          rw [Except.error.inj (hparse.symm.trans hother)]
        | cons earlier before =>
          cases heq
          obtain ⟨found, hfound⟩ := hbefore text List.mem_cons_self
          cases hfound.symm.trans hparse
    | ok found =>
      simp only [ih]
      constructor
      · rintro ⟨before, other, behind, rfl, hbefore, hother⟩
        exact ⟨text :: before, other, behind, rfl,
          List.forall_mem_cons.mpr ⟨⟨found, hparse⟩, hbefore⟩, hother⟩
      · rintro ⟨before, other, behind, heq, hbefore, hother⟩
        cases before with
        | nil =>
          cases heq
          cases hparse.symm.trans hother
        | cons earlier before =>
          cases heq
          exact ⟨before, other, behind, rfl, (List.forall_mem_cons.mp hbefore).2, hother⟩

theorem checkExpressions_eq_ok_iff {limits : Limits} {texts : List String} :
    checkExpressions limits texts = .ok () ↔
      ∀ text ∈ texts, ∃ found, Expression.parseWithin limits text = .ok found := by
  induction texts with
  | nil => simp [checkExpressions]
  | cons text rest ih =>
    rw [checkExpressions, List.forall_mem_cons, ← ih]
    cases Expression.parseWithin limits text <;> simp

end Settings

namespace FieldSelector

/-- Making plans of texts fails for the first of them that is no expression. -/
theorem compile_eq_error_iff (limits : Limits) (texts : List String) (e : ParseError) :
    compile limits texts = .error e ↔ ∃ before text behind,
      texts = before ++ text :: behind ∧
      (∀ earlier ∈ before, ∃ found, Expression.parseWithin limits earlier = .ok found) ∧
      Expression.parseWithin limits text = .error e := by
  rw [← verdict_eq_error_iff, verdict_compile, Settings.checkExpressions_eq_error_iff]

theorem exists_compile_eq_error_iff (limits : Limits) (texts : List String) :
    (∃ e, compile limits texts = .error e) ↔
      ∃ text ∈ texts, ∃ e, Expression.parseWithin limits text = .error e := by
  constructor
  · rintro ⟨e, he⟩
    obtain ⟨before, text, behind, rfl, -, htext⟩ := (compile_eq_error_iff limits texts e).mp he
    exact ⟨text, by simp, e, htext⟩
  · rintro ⟨text, hm, e, he⟩
    cases hcompile : compile limits texts with
    | error e' => exact ⟨e', rfl⟩
    | ok s =>
      -- otherwise the check would pass, and the text is no expression
      have hchecked : Settings.checkExpressions limits texts = .ok () := by
        rw [← verdict_compile, hcompile, verdict_ok]
      obtain ⟨found, hfound⟩ := Settings.checkExpressions_eq_ok_iff.mp hchecked text hm
      cases he.symm.trans hfound

end FieldSelector

namespace Settings

theorem checkExpressions_of_validate {settings : Settings} (h : settings.validate = .ok ()) :
    checkExpressions settings.effectiveLimits
      (settings.fields ++ (settings.filter.map Filter.field).toList) = .ok () := by
  unfold validate at h
  split at h
  · cases h
  · split at h
    · cases h
    · split at h
      · cases h
      · exact mapError_eq_ok_iff.mp h

end Settings

namespace Prepared

/-- What passes the check can be prepared: the fields have plans, and the filter a condition. -/
theorem ofSettings_of_validate {settings : Settings} (h : settings.validate = .ok ()) :
    ∃ selector condition,
      FieldSelector.compile settings.effectiveLimits settings.fields = .ok selector ∧
      settings.filter.mapM (Condition.ofFilter settings.effectiveLimits) = .ok condition ∧
      ofSettings settings = .ok ⟨settings, selector.fields, condition⟩ := by
  have hchecked := Settings.checkExpressions_eq_ok_iff.mp (Settings.checkExpressions_of_validate h)
  rw [List.forall_mem_append] at hchecked
  obtain ⟨hfields, hfilter⟩ := hchecked
  obtain ⟨selector, hselector⟩ : ∃ selector,
      FieldSelector.compile settings.effectiveLimits settings.fields = .ok selector := by
    rw [← verdict_eq_ok_iff, FieldSelector.verdict_compile, Settings.checkExpressions_eq_ok_iff]
    exact hfields
  have hcompile : FieldPlans.compile settings.effectiveLimits settings.fields =
      .ok selector.fields := map_eq_ok_iff.mpr ⟨selector, hselector, rfl⟩
  cases hsome : settings.filter with
  | none =>
    refine ⟨selector, none, hselector, rfl, ?_⟩
    simp [ofSettings, h, hcompile, hsome, Except.mapError, bind, Except.bind, pure, Except.pure]
  | some filter =>
    obtain ⟨e, he⟩ := hfilter filter.field (by simp [hsome])
    have hcondition : Condition.ofFilter settings.effectiveLimits filter =
        .ok ⟨filter.field, filter.equals, e.plan⟩ := by
      simp [Condition.ofFilter, Condition.compile, Plan.compileWithin, he, Except.map]
    refine ⟨selector, some ⟨filter.field, filter.equals, e.plan⟩, hselector, ?_, ?_⟩
    · rw [Option.mapM_some, hcondition]
      rfl
    · simp [ofSettings, h, hcompile, hsome, hcondition, Except.mapError, bind, Except.bind, pure,
        Except.pure]

theorem ofSettings_of_error {settings : Settings} {e : PipelineError}
    (h : settings.validate = .error e) : ofSettings settings = .error e := by
  rw [ofSettings, h]
  rfl

/-- What a pipeline knows comes from its settings. -/
theorem of_ofSettings {settings : Settings} {p : Prepared}
    (h : ofSettings settings = .ok p) :
    p.settings = settings ∧
      FieldPlans.compile settings.effectiveLimits settings.fields = .ok p.fields ∧
      (settings.filter = none → p.condition = none) := by
  obtain ⟨_, -, h⟩ := bind_eq_ok_iff.mp h
  obtain ⟨fields, hfields, h⟩ := bind_eq_ok_iff.mp h
  have hfields := mapError_eq_ok_iff.mp hfields
  split at h
  · obtain rfl : _ = p := by simpa [pure, Except.pure] using h
    exact ⟨rfl, hfields, fun _ => rfl⟩
  · next filter hfilter =>
    obtain ⟨condition, -, h⟩ := bind_eq_ok_iff.mp h
    obtain rfl : _ = p := by simpa [pure, Except.pure] using h
    exact ⟨rfl, hfields, fun hnone => by simp [hfilter] at hnone⟩

/-- The condition of a pipeline is that of the filter in its settings, if there is one. -/
theorem condition_of_ofSettings {settings : Settings} {p : Prepared}
    (h : ofSettings settings = .ok p) :
    settings.filter.map (Condition.ofFilter settings.effectiveLimits) =
      p.condition.map Except.ok := by
  obtain ⟨_, -, h⟩ := bind_eq_ok_iff.mp h
  obtain ⟨fields, -, h⟩ := bind_eq_ok_iff.mp h
  split at h
  · next hfilter =>
    obtain rfl : _ = p := by simpa [pure, Except.pure] using h
    rw [hfilter]
    rfl
  · next filter hfilter =>
    obtain ⟨condition, hcondition, h⟩ := bind_eq_ok_iff.mp h
    obtain rfl : _ = p := by simpa [pure, Except.pure] using h
    rw [hfilter]
    exact congrArg some (mapError_eq_ok_iff.mp hcondition)

end Prepared

/-- What is set up, and when. Plans are made of texts unless one is no expression, and the failure
is that of the first such text. The expressions are the distinct texts, in the order of their first
mention; for either flavor there is one plan for each of them, in the same order, and a text leads
to its own plan if it is one of them. For settings that pass the check there are plans and, with a
filter, a condition, and it only remains to start the service; for others the pipeline is refused
as the check refuses them, and the service is not started. -/
theorem Pipeline.preparation_exact :
    (∀ (limits : Limits) (texts : List String),
      ((∃ e, FieldSelector.compile limits texts = .error e) ↔
        ∃ text ∈ texts, ∃ e, Expression.parseWithin limits text = .error e) ∧
      (∀ e, FieldSelector.compile limits texts = .error e ↔ ∃ before text behind,
        texts = before ++ text :: behind ∧
        (∀ earlier ∈ before, ∃ found, Expression.parseWithin limits earlier = .ok found) ∧
        Expression.parseWithin limits text = .error e) ∧
      ∀ selector, FieldSelector.compile limits texts = .ok selector →
        selector.expressions = texts.eraseDups ∧
        ∀ flavor, (selector.flavor flavor).plans = selector.fields.plans ∧
          (selector.flavor flavor).plans.length = selector.expressions.length ∧
          (∀ (i : Nat) (text : String), selector.expressions[i]? = some text →
            ∃ e, Expression.parseWithin limits text = .ok e ∧
              (selector.flavor flavor).plans[i]? = some e.plan) ∧
          ∀ text plan, (selector.flavor flavor).find? text = some plan ↔
            text ∈ texts ∧ ∃ e, Expression.parseWithin limits text = .ok e ∧ e.plan = plan) ∧
    ∀ (m : Type → Type) [Monad m] (settings : Settings) (service : Service m),
      (settings.validate = .ok () → ∃ selector condition,
        FieldSelector.compile settings.effectiveLimits settings.fields = .ok selector ∧
        settings.filter.mapM (Condition.ofFilter settings.effectiveLimits) = .ok condition ∧
        Pipeline.begin settings service = do
          match ← service.start with
          | .error e => pure (.error (.service e))
          | .ok () => pure (.ok ⟨⟨settings, selector.fields, condition⟩, service⟩)) ∧
      ∀ e, settings.validate = .error e → Pipeline.begin settings service = pure (.error e) := by
  refine ⟨fun limits texts => ⟨?_, fun e => ?_, fun selector h => ?_⟩,
    fun m _ settings service => ⟨fun h => ?_, fun e h => ?_⟩⟩
  · exact FieldSelector.exists_compile_eq_error_iff limits texts
  · exact FieldSelector.compile_eq_error_iff limits texts e
  · obtain ⟨hexact, hexpressions⟩ := FieldSelector.exact_of_compile h
    refine ⟨hexpressions, fun flavor => ?_⟩
    have hflavor := hexact.flavor flavor
    refine ⟨hflavor.plans_unique hexact.generic, hflavor.compiled.length_eq.symm,
      fun i text hi => ?_, fun text plan => ?_⟩
    · obtain ⟨plan, hplan, hcompile⟩ := hflavor.getElem? hi
      obtain ⟨e, he, rfl⟩ := map_eq_ok_iff.mp hcompile
      exact ⟨e, he, hplan⟩
    · rw [hflavor.find?_eq_some_iff hexact.nodup, FieldSelector.mem_expressions h,
        Plan.compileWithin, map_eq_ok_iff]
  · obtain ⟨selector, condition, hselector, hcondition, hprepared⟩ :=
      Prepared.ofSettings_of_validate h
    refine ⟨selector, condition, hselector, hcondition, ?_⟩
    unfold Pipeline.begin
    exact hprepared ▸ rfl
  · rw [begin, Prepared.ofSettings_of_error h]

/-- A text that comes again adds no plan, and one that denotes the same as another adds its own. -/
example : (FieldSelector.compile {} ["$.b", "$.a[*]", "$.b", "$['b']"]).map (fun selector =>
    (selector.expressions, selector.structured.find? "$['b']", selector.generic.find? "$.a")) =
      .ok (["$.b", "$.a[*]", "$['b']"], some ⟨"$['b']", [.field "b"]⟩, none) := by
  decide

end RecordCipher

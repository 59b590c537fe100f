import PriorityLfu.Derive.Scope
import Mathlib.Data.List.Induction

/-!
# The derive generates the field sum

`bindAll` settles what a pattern makes of a scope. In a scope where `context` is the context and
every receiver is its field, a generated sum resolves to the sum of the fields in order
(`resolve_sumOf`); a sum that resolves to calls of fields has been in such a scope
(`resolve_sumOf_wellScoped`).
-/
namespace PriorityLfu.Derive
open Deepsize

variable {site : Site} {input : DeriveInput} {data : Data} {scope inner : Scope}

/-! ## Patterns -/

namespace Scope

variable {variant : Ident} {binders : List (Ident × Nat)}

/-- The name of an item is not bound. -/
theorem bindAll_item {tests : List Test} {name : String}
    (h : scope.bindAll site variant binders = some (inner, tests))
    (hname : scope name = some .item) : inner name = some .item := by
  induction binders generalizing scope tests with
  | nil =>
    cases h
    exact hname
  | cons a bs ih =>
    rw [bindAll] at h
    split at h
    · split at h
      · obtain ⟨⟨inner', tests'⟩, hrest, heq⟩ := Option.map_eq_some_iff.mp h
        cases heq
        exact ih hrest hname
      · cases h
    · next hitem =>
      have hne : a.1.name ≠ name := fun e => hitem (e ▸ hname)
      exact ih h ((if_neg hne).trans hname)

/-- Binders with different names, none of them an item, are all in scope afterwards, and the
other names mean what they meant. -/
theorem bindAll_of_ne_item (hd : (binders.map fun b => b.1.name).Nodup)
    (h : ∀ b ∈ binders, scope b.1.name ≠ some .item) :
    ∃ inner, scope.bindAll site variant binders = some (inner, []) ∧
      (∀ b ∈ binders, inner b.1.name = some (.field b.2)) ∧
      ∀ name, (∀ b ∈ binders, b.1.name ≠ name) → inner name = scope name := by
  induction binders generalizing scope with
  | nil => exact ⟨scope, rfl, fun b hb => absurd hb List.not_mem_nil, fun _ _ => rfl⟩
  | cons a bs ih =>
    obtain ⟨ha, hbs⟩ := List.forall_mem_cons.mp h
    obtain ⟨hna, hds⟩ := List.nodup_cons.mp hd
    have hne : ∀ b ∈ bs, a.1.name ≠ b.1.name := fun b hb e =>
      hna (List.mem_map.mpr ⟨b, hb, e.symm⟩)
    have hnext : ∀ b ∈ bs, scope.update a.1 (.field a.2) b.1.name ≠ some .item := fun b hb => by
      simpa [update, hne b hb] using hbs b hb
    obtain ⟨inner, hinner, hin, hout⟩ := ih hds hnext
    refine ⟨inner, ?_, ?_, fun name hname => ?_⟩
    · rw [bindAll, if_neg ha]
      exact hinner
    · intro b hb
      rcases List.mem_cons.mp hb with rfl | hb
      · rw [hout b.1.name fun c hc => (hne c hc).symm]
        exact if_pos rfl
      · exact hin b hb
    · obtain ⟨hname, hnames⟩ := List.forall_mem_cons.mp hname
      rw [hout name hnames]
      exact if_neg hname

end Scope

/-! ## Sums -/

/-- The calls of the first `n` fields. -/
def callsUpTo (n : Nat) : Code :=
  (List.range n).foldl (fun code i => code.add (.deepSizeOfChildren (.field i))) .zero

theorem callsUpTo_succ (n : Nat) :
    callsUpTo (n + 1) = (callsUpTo n).add (.deepSizeOfChildren (.field n)) := by
  rw [callsUpTo, List.range_succ, List.foldl_append]
  rfl

theorem wellScoped_callsUpTo (n : Nat) : (callsUpTo n).WellScoped := by
  induction n with
  | zero => trivial
  | succ n ih =>
    rw [callsUpTo_succ]
    exact ⟨ih, trivial⟩

variable {α : Type} [Amount α]

theorem run_callsUpTo {value : Instance α data} {n : Nat} (hn : n ≤ value.fields.length) :
    (callsUpTo n).run value = ((value.fields.take n).map Component.children).sum := by
  induction n with
  | zero => rfl
  | succ n ih =>
    have hlt : n < value.fields.length := hn
    have hlast : (Code.deepSizeOfChildren (.field n)).run value = value.fields[n].children := by
      simp [Code.run, hlt]
    calc (callsUpTo (n + 1)).run value
        = (callsUpTo n).run value + (Code.deepSizeOfChildren (.field n)).run value := by
          rw [callsUpTo_succ, Code.run]
      _ = ((value.fields.take n).map Component.children).sum + value.fields[n].children := by
          rw [ih hlt.le, hlast]
      _ = ((value.fields.take (n + 1)).map Component.children).sum := by
          rw [List.take_add_one, List.getElem?_eq_getElem hlt, List.map_append, List.sum_append]
          simp

theorem sumOf_append (es : List Expr) (e : Expr) : sumOf (es ++ [e]) = (sumOf es).add e :=
  List.foldl_append

/-- A sum of calls whose receivers are the fields in order. -/
theorem resolve_sumOf {receivers : List Receiver}
    (hcontext : scope context.name = some .context)
    (h : ∀ i (hi : i < receivers.length), receivers[i].resolve data scope = some (.field i)) :
    (sumOf (receivers.map fun r => .deepSizeOfChildren r context)).resolve data scope =
      some (callsUpTo receivers.length) := by
  induction receivers using List.reverseRecOn with
  | nil => rfl
  | append_singleton rs r ih =>
    have hr : r.resolve data scope = some (.field rs.length) := by
      have := h rs.length (by simp)
      simpa using this
    have hrs := ih fun i hi => by
      have := h i (by simp; omega)
      simpa [List.getElem_append_left hi] using this
    rw [List.map_append, List.map_singleton, sumOf_append, Expr.resolve, hrs, Expr.resolve,
      if_pos hcontext, hr, List.length_append, List.length_singleton, callsUpTo_succ]
    rfl

/-- A sum that compiles to calls of fields: its receivers are fields, and `context` is the
context. -/
theorem resolve_sumOf_wellScoped {receivers : List Receiver} {code : Code}
    (h : (sumOf (receivers.map fun r => .deepSizeOfChildren r context)).resolve data scope =
      some code) (hcode : code.WellScoped) {r : Receiver} (hr : r ∈ receivers) :
    scope context.name = some .context ∧ ∃ i, r.resolve data scope = some (.field i) := by
  induction receivers using List.reverseRecOn generalizing code with
  | nil => cases hr
  | append_singleton rs last ih =>
    rw [List.map_append, List.map_singleton, sumOf_append, Expr.resolve] at h
    split at h
    · next a b ha hb =>
      cases h
      rcases List.mem_append.mp hr with hr | hr
      · exact ih ha hcode.1 hr
      · obtain rfl := List.mem_singleton.mp hr
        rw [Expr.resolve] at hb
        split at hb
        · next hcontext =>
          obtain ⟨target, htarget, rfl⟩ := Option.map_eq_some_iff.mp hb
          cases target with
          | field i => exact ⟨hcontext, i, htarget⟩
          | constant name => exact hcode.2.elim
        · cases hb
    · cases h

/-! ## Lists -/

/-- With different keys each element is found under its own. -/
theorem findIdx?_key {α : Type} {l : List α} (key : α → String) (hd : (l.map key).Nodup) {i : Nat}
    (hi : i < l.length) : l.findIdx? (fun a => key a == key l[i]) = some i := by
  refine List.findIdx?_eq_some_iff_getElem.mpr ⟨hi, beq_self_eq_true _, fun j hj => ?_⟩
  have hne := List.pairwise_iff_getElem.mp hd j i (by simp; omega) (by simpa) hj
  simpa using hne

theorem mapM_eq_some_iff {α β : Type} {f : α → Option β} {l : List α} {l' : List β} :
    l.mapM f = some l' ↔ l.map f = l'.map some := by
  induction l generalizing l' with
  | nil => cases l' <;> simp
  | cons a as ih =>
    cases l' with
    | nil => simp [List.mapM_cons, Option.bind_eq_some_iff]
    | cons b bs => simp [List.mapM_cons, Option.bind_eq_some_iff, ih]

/-! ## Structs -/

/-- The receivers of a struct. -/
def Fields.receivers : Fields → List Receiver
  | .named fields => fields.map .selfNamed
  | .unnamed len => (List.range len).map .selfIndex
  | .unit => []

theorem Fields.length_receivers (fields : Fields) : fields.receivers.length = fields.len := by
  cases fields <;> simp [receivers, len]

theorem matchFields_eq (fields : Fields) : matchFields fields =
    sumOf (fields.receivers.map fun r => .deepSizeOfChildren r context) := by
  cases fields <;> simp [matchFields, Fields.receivers, sumOf, Function.comp_def]

/-- A field of a struct is referred to where it is aligned. -/
theorem resolve_receiver {fields : Fields} (hd : fields.Distinct) (placement : Placement) {i : Nat}
    (hi : i < fields.receivers.length) :
    fields.receivers[i].resolve (.struct fields placement) scope =
      if placement.aligned i then some (.field i) else none := by
  cases fields with
  | named fields =>
    have hlt : i < fields.length := by simpa [Fields.receivers] using hi
    have hfound : fieldIndex fields fields[i] = some i := findIdx?_key Ident.name hd hlt
    simp only [Fields.receivers, List.getElem_map, Receiver.resolve, hfound, Option.filter_some]
    split <;> rfl
  | unnamed len =>
    have hlt : i < len := by simpa [Fields.receivers] using hi
    simp [Fields.receivers, Receiver.resolve, hlt]
  | unit => cases hi

theorem resolve_matchFields {fields : Fields} (hd : fields.Distinct) {placement : Placement}
    (haligned : ∀ i < fields.len, placement.aligned i = true)
    (hcontext : scope context.name = some .context) :
    (matchFields fields).resolve (.struct fields placement) scope =
      some (callsUpTo fields.len) := by
  rw [matchFields_eq, ← fields.length_receivers]
  refine resolve_sumOf hcontext fun i hi => ?_
  rw [resolve_receiver hd placement hi, if_pos (haligned i (fields.length_receivers ▸ hi))]

theorem aligned_of_resolve {fields : Fields} (hd : fields.Distinct) {placement : Placement}
    {code : Code} (h : (matchFields fields).resolve (.struct fields placement) scope = some code)
    (hcode : code.WellScoped) {i : Nat} (hi : i < fields.len) : placement.aligned i = true := by
  rw [matchFields_eq] at h
  have hi' : i < fields.receivers.length := fields.length_receivers.symm ▸ hi
  obtain ⟨-, j, hj⟩ := resolve_sumOf_wellScoped h hcode (List.getElem_mem hi')
  rw [resolve_receiver hd placement hi'] at hj
  by_contra hnot
  rw [if_neg hnot] at hj
  cases hj

/-! ## Variants -/

theorem positional_injective {i j : Nat} (h : (positional i).name = (positional j).name) :
    i = j := by
  have hrepr : i.repr = j.repr := String.append_right_inj "_" |>.mp h
  have hdigits : Nat.toDigits 10 i = Nat.toDigits 10 j := String.ofList_injective hrepr
  simpa using congrArg (fun ds => Nat.ofDigitChars 10 ds 0) hdigits

/-- The names a pattern binds, each to its field. -/
def Fields.bindings (fields : Fields) : List (Ident × Nat) := fields.binders.zipIdx

theorem Fields.length_binders (fields : Fields) : fields.binders.length = fields.len := by
  cases fields <;> simp [binders, len]

theorem Fields.Distinct.binders {fields : Fields} (hd : fields.Distinct) :
    (fields.binders.map Ident.name).Nodup := by
  cases fields with
  | named fields => exact hd
  | unnamed len =>
    rw [Fields.binders, List.map_map]
    exact List.nodup_range.map fun _ _ h => positional_injective h
  | unit => exact List.nodup_nil

/-- The pattern of a variant fits its fields. -/
theorem binders_getMatcher {var : Variant} (hd : var.fields.Distinct) :
    (getMatcher var).binders var.fields = some var.fields.bindings := by
  cases h : var.fields with
  | named fields =>
    rw [h] at hd
    have hindex : fields.map (fun x => (fieldIndex fields x).map fun i => (x, i)) =
        (Fields.named fields).bindings.map some := by
      refine List.ext_getElem (by simp [Fields.bindings, Fields.binders]) fun i hi _ => ?_
      have hlt : i < fields.length := by simpa using hi
      have hfound : fieldIndex fields fields[i] = some i := findIdx?_key Ident.name hd hlt
      simp [Fields.bindings, Fields.binders, hfound]
    simp only [getMatcher, h, Matcher.binders, if_pos]
    exact mapM_eq_some_iff.mpr hindex
  | unnamed len =>
    simp [getMatcher, h, Matcher.binders, Fields.bindings, Fields.binders]
  | unit => simp [getMatcher, h, Matcher.binders, Fields.bindings, Fields.binders]

theorem matchEnumFields_eq (fields : Fields) : matchEnumFields fields =
    sumOf ((fields.binders.map Receiver.var).map fun r => .deepSizeOfChildren r context) := by
  cases fields <;> simp [matchEnumFields, Fields.binders, sumOf, Function.comp_def]

/-- Binders that are not items all come into scope. -/
theorem bindAll_bindings (site : Site) (variant : Ident) {fields : Fields} (hd : fields.Distinct)
    (h : ∀ x ∈ fields.binders, scope x.name ≠ some .item) :
    ∃ inner, scope.bindAll site variant fields.bindings = some (inner, []) ∧
      (∀ i (hi : i < fields.binders.length),
        inner fields.binders[i].name = some (.field i)) ∧
      ∀ name, (∀ x ∈ fields.binders, x.name ≠ name) → inner name = scope name := by
  have hnames : fields.bindings.map (fun b => b.1.name) = fields.binders.map Ident.name := by
    refine List.ext_getElem (by simp [Fields.bindings]) fun i _ _ => ?_
    simp [Fields.bindings]
  have hmem : ∀ b ∈ fields.bindings, b.1 ∈ fields.binders := by
    intro b hb
    exact List.fst_mem_of_mem_zipIdx hb
  obtain ⟨inner, hinner, hin, hout⟩ := Scope.bindAll_of_ne_item (hnames ▸ hd.binders)
    fun b hb => h b.1 (hmem b hb)
  refine ⟨inner, hinner, fun i hi => ?_, fun name hname => hout name fun b hb =>
    hname b.1 (hmem b hb)⟩
  have hi' : (fields.binders[i], i) ∈ fields.bindings :=
    List.mk_mem_zipIdx_iff_getElem?.mpr (by simp)
  exact hin _ hi'

/-- The arm that is generated for a variant. -/
def armOf (structName : Ident) (var : Variant) : Arm where
  structName
  variant := var.ident
  matcher := getMatcher var
  output := matchEnumFields var.fields

/-- The arm of a variant is its pattern and its sum. -/
theorem resolve_armOf_eq {variants : List Variant} (hd : (Data.enum variants).Distinct) {i : Nat}
    (hi : i < variants.length) :
    (armOf input.ident variants[i]).resolve site input variants scope =
      (scope.bindAll site variants[i].ident variants[i].fields.bindings).bind
        fun (inner, tests) => ((matchEnumFields variants[i].fields).resolve input.data inner).map
          fun code => ⟨i, tests, code⟩ := by
  have hindex : variantIndex variants variants[i].ident = some i :=
    findIdx?_key (fun var : Variant => var.ident.name) hd.1 hi
  have hvar : variants[i]? = some variants[i] := List.getElem?_eq_getElem hi
  have hbinders := binders_getMatcher (hd.2 _ (List.getElem_mem hi))
  simp only [Arm.resolve, armOf, guard, if_true, Option.pure_def, Option.bind_eq_bind,
    Option.bind_some, hindex, hvar, hbinders, Option.map_eq_bind, Function.comp_def]

theorem resolve_armOf {variants : List Variant} (hd : (Data.enum variants).Distinct)
    (hcontext : scope context.name = some .context) {i : Nat} (hi : i < variants.length)
    (h : ∀ x ∈ variants[i].fields.binders,
      scope x.name ≠ some .item ∧ x.name ≠ context.name) :
    (armOf input.ident variants[i]).resolve site input variants scope =
      some ⟨i, [], callsUpTo variants[i].fields.len⟩ := by
  obtain ⟨inner, hinner, hin, hout⟩ := bindAll_bindings site variants[i].ident
    (hd.2 _ (List.getElem_mem hi)) fun x hx => (h x hx).1
  have hcontext' : inner context.name = some .context :=
    (hout _ fun x hx => (h x hx).2).trans hcontext
  have hall : ∀ j (hj : j < (variants[i].fields.binders.map Receiver.var).length),
      (variants[i].fields.binders.map Receiver.var)[j].resolve input.data inner =
        some (.field j) := by
    intro j hj
    have hj' : j < variants[i].fields.binders.length := by simpa using hj
    simp [Receiver.resolve, hin j hj']
  have hcode : (matchEnumFields variants[i].fields).resolve input.data inner =
      some (callsUpTo variants[i].fields.len) := by
    rw [matchEnumFields_eq, resolve_sumOf hcontext' hall, List.length_map, Fields.length_binders]
  simp [resolve_armOf_eq hd hi, hinner, hcode]

/-- An arm that compiles to calls of fields binds names that are free to be bound. -/
theorem fresh_of_resolve {variants : List Variant} (hd : (Data.enum variants).Distinct) {i : Nat}
    (hi : i < variants.length) {c : Case}
    (h : (armOf input.ident variants[i]).resolve site input variants scope = some c)
    (hcode : c.code.WellScoped) {x : Ident} (hx : x ∈ variants[i].fields.binders) :
    scope x.name ≠ some .item ∧ x.name ≠ context.name := by
  rw [resolve_armOf_eq hd hi] at h
  obtain ⟨⟨inner, tests⟩, hinner, h⟩ := Option.bind_eq_some_iff.mp h
  obtain ⟨code, hresolve, rfl⟩ := Option.map_eq_some_iff.mp h
  rw [matchEnumFields_eq] at hresolve
  obtain ⟨hcontext, j, hj⟩ := resolve_sumOf_wellScoped hresolve hcode (List.mem_map_of_mem hx)
  constructor
  · intro hitem
    rw [Receiver.resolve, Scope.bindAll_item hinner hitem] at hj
    cases hj
  · intro hname
    rw [Receiver.resolve, hname, hcontext] at hj
    cases hj

/-! ## The method -/

/-- The scope of the body. -/
def Scope.body (site : Site) : Scope := (outer site).update context .context

theorem resolve_method (body : Body) :
    ({ context, body } : Method).resolve site input =
      if site.items context.name then none else body.resolve site input (Scope.body site) := by
  cases h : site.items context.name with
  | true => simp [Method.resolve, Scope.bind, Scope.outer, h]
  | false =>
    have hitem : Scope.outer site context.name ≠ some .item := by simp [Scope.outer, h]
    rw [Method.resolve, Scope.bind, if_neg hitem]
    rfl

theorem body_context : Scope.body site context.name = some .context := by
  simp [Scope.body, Scope.update]

theorem body_eq_item_iff {x : Ident} :
    Scope.body site x.name = some .item ↔ x.name ≠ context.name ∧ site.items x.name = true := by
  rw [Scope.body, Scope.update, Scope.outer]
  split
  · next h => simp [h.symm]
  · next h => simp [Ne.symm h]

/-- All fields of a value. -/
theorem run_fields (value : Instance α data) : (callsUpTo value.shape.len).run value =
    (value.fields.map Component.children).sum := by
  rw [run_callsUpTo value.len_eq.ge, ← value.len_eq, List.take_length]

/-- The arm that calls the fields of a variant. -/
def caseOf (var : Variant) (i : Nat) : Case := ⟨i, [], callsUpTo var.fields.len⟩

/-- The arm of the active variant is taken. -/
theorem run_matchSelf {variants : List Variant} (value : Instance α (.enum variants))
    (otherwise : Code) :
    (Program.matchSelf (variants.zipIdx.map fun (var, i) => caseOf var i) otherwise).run value =
      (value.fields.map Component.children).sum := by
  have hactive := value.active_eq
  simp only [Data.alternatives, List.getElem?_map, Option.map_eq_some_iff] at hactive
  obtain ⟨var, hvar, hshape⟩ := hactive
  obtain ⟨hlt, hget⟩ := List.getElem?_eq_some_iff.mp hvar
  have hfound : (variants.zipIdx.map fun (var, i) => caseOf var i).find?
      (fun c => c.variant == value.active && c.tests.all value.equal) =
        some (caseOf var value.active) := by
    refine List.find?_eq_some_iff_getElem.mpr ⟨by simp [caseOf], value.active, by simpa, ?_, ?_⟩
    · simp [hget]
    · intro j hj
      simpa [caseOf] using hj.ne
  rw [Program.run, hfound, ← run_fields value, ← hshape]
  rfl

theorem run_sum {fields : Fields} {placement : Placement}
    (value : Instance α (.struct fields placement)) :
    (Program.sum (callsUpTo fields.len)).run value =
      (value.fields.map Component.children).sum := by
  have hshape : value.shape = fields :=
    List.mem_singleton.mp (List.mem_of_getElem? value.active_eq)
  have hrun := run_fields value
  rwa [hshape] at hrun

theorem resolve_matchSelf {variants : List Variant} (hdata : input.data = .enum variants) :
    (Body.matchSelf (variants.map fun var =>
      { structName := input.ident
        variant := var.ident
        matcher := getMatcher var
        output := matchEnumFields var.fields }) .zero).resolve site input scope =
      ((variants.map (armOf input.ident)).mapM (Arm.resolve site input variants scope)).map
        fun cases => .matchSelf cases .zero := by
  rw [Body.resolve, hdata]
  change (((variants.map (armOf input.ident)).mapM (Arm.resolve site input variants scope)).bind
    fun cases => some (Program.matchSelf cases .zero)) = _
  rw [Option.map_eq_bind]
  rfl

/-- All arms of an enum, if every pattern can bind its names. -/
theorem resolve_arms {variants : List Variant} (hd : (Data.enum variants).Distinct)
    (h : ∀ var ∈ variants, ∀ x ∈ var.fields.binders,
      site.items x.name = false ∧ x.name ≠ context.name) :
    (variants.map (armOf input.ident)).mapM (Arm.resolve site input variants (Scope.body site)) =
      some (variants.zipIdx.map fun (var, i) => caseOf var i) := by
  refine mapM_eq_some_iff.mpr (List.ext_getElem (by simp) fun i hi _ => ?_)
  have hlt : i < variants.length := by simpa using hi
  have hfresh : ∀ x ∈ variants[i].fields.binders,
      Scope.body site x.name ≠ some .item ∧ x.name ≠ context.name := by
    intro x hx
    obtain ⟨hitem, hcontext⟩ := h _ (List.getElem_mem hlt) x hx
    exact ⟨fun e => by simp [(body_eq_item_iff.mp e).2] at hitem, hcontext⟩
  have harm : (armOf input.ident variants[i]).resolve site input variants (Scope.body site) =
      some (caseOf variants[i] i) := resolve_armOf hd body_context hlt hfresh
  simpa using harm

theorem fieldSum_struct_iff {ident : Ident} {fields : Fields} {placement : Placement}
    (hd : (Data.struct fields placement).Distinct) :
    FieldSum site ⟨ident, .struct fields placement, hd⟩ ↔ site.items context.name = false ∧
      ∀ i < fields.len, placement.aligned i = true := by
  constructor
  · rintro ⟨method, program, hmethod, hprogram, hscoped, -⟩
    cases hmethod
    rw [resolve_method] at hprogram
    cases h : site.items context.name with
    | true => simp [h] at hprogram
    | false =>
      rw [h, if_neg Bool.false_ne_true, Body.resolve] at hprogram
      obtain ⟨code, hcode, rfl⟩ := Option.map_eq_some_iff.mp hprogram
      exact ⟨rfl, fun i hi => aligned_of_resolve hd hcode hscoped hi⟩
  · rintro ⟨hfree, haligned⟩
    refine ⟨_, .sum (callsUpTo fields.len), rfl, ?_, wellScoped_callsUpTo _,
      fun α _ value => run_sum value⟩
    rw [resolve_method, hfree, if_neg Bool.false_ne_true, Body.resolve,
      resolve_matchFields hd haligned body_context]
    rfl

/-- If the arms of an enum compile and call fields only, their patterns bind every name. -/
theorem fresh_of_resolve_arms {ident : Ident} {variants : List Variant}
    (hd : (Data.enum variants).Distinct) {cases : List Case}
    (hcases : (variants.map (armOf ident)).mapM
      (Arm.resolve site ⟨ident, .enum variants, hd⟩ variants (Scope.body site)) = some cases)
    (hscoped : ∀ c ∈ cases, c.code.WellScoped) {var : Variant} (hvar : var ∈ variants) {x : Ident}
    (hx : x ∈ var.fields.binders) : site.items x.name = false ∧ x.name ≠ context.name := by
  obtain ⟨i, hi, rfl⟩ := List.mem_iff_getElem.mp hvar
  obtain ⟨c, hc, harm⟩ : ∃ c ∈ cases, (armOf ident variants[i]).resolve site
      ⟨ident, .enum variants, hd⟩ variants (Scope.body site) = some c := by
    have hmem := List.mem_map_of_mem (f := Arm.resolve site ⟨ident, .enum variants, hd⟩
      variants (Scope.body site)) (List.mem_map_of_mem (f := armOf ident) hvar)
    rw [mapM_eq_some_iff.mp hcases] at hmem
    obtain ⟨c, hc, heq⟩ := List.mem_map.mp hmem
    exact ⟨c, hc, heq.symm⟩
  obtain ⟨hitem, hcontext⟩ := fresh_of_resolve hd hi harm (hscoped c hc) hx
  refine ⟨?_, hcontext⟩
  by_contra hnot
  exact hitem (body_eq_item_iff.mpr ⟨hcontext, by simpa using hnot⟩)

theorem fieldSum_enum_iff {ident : Ident} {variants : List Variant}
    (hd : (Data.enum variants).Distinct) :
    FieldSum site ⟨ident, .enum variants, hd⟩ ↔ site.items context.name = false ∧
      ∀ var ∈ variants, ∀ x ∈ var.fields.binders,
        site.items x.name = false ∧ x.name ≠ context.name := by
  constructor
  · rintro ⟨method, program, hmethod, hprogram, hscoped, -⟩
    cases hmethod
    rw [resolve_method] at hprogram
    cases h : site.items context.name with
    | true => simp [h] at hprogram
    | false =>
      rw [h, if_neg Bool.false_ne_true, resolve_matchSelf rfl] at hprogram
      obtain ⟨cases, hcases, rfl⟩ := Option.map_eq_some_iff.mp hprogram
      exact ⟨rfl, fun var hvar x hx => fresh_of_resolve_arms hd hcases hscoped.1 hvar hx⟩
  · rintro ⟨hfree, hbinders⟩
    refine ⟨_, .matchSelf (variants.zipIdx.map fun (var, i) => caseOf var i) .zero, rfl, ?_,
      ⟨?_, trivial⟩, fun α _ value => run_matchSelf value .zero⟩
    · rw [resolve_method, hfree, if_neg Bool.false_ne_true, resolve_matchSelf rfl,
        resolve_arms hd hbinders]
      rfl
    · intro c hc
      obtain ⟨⟨var, i⟩, -, rfl⟩ := List.mem_map.mp hc
      exact wellScoped_callsUpTo _

/-- The derived method is the sum of the fields exactly if the names it binds are free to be
bound, and no reference goes to a field that may not be aligned. -/
theorem fieldSum_iff (site : Site) (input : DeriveInput) :
    FieldSum site input ↔ input.BindsFreshly site := by
  obtain ⟨ident, data, hd⟩ := input
  cases data with
  | struct fields placement => exact fieldSum_struct_iff hd
  | enum variants => exact fieldSum_enum_iff hd
  | union =>
    refine iff_of_false ?_ id
    rintro ⟨method, program, hmethod, -⟩
    cases hmethod

/-- `enum Frame { Open { context: T, path: U } }` -/
def frame : DeriveInput where
  ident := ⟨"Frame", false⟩
  data := .enum [⟨⟨"Open", false⟩, .named [⟨"context", false⟩, ⟨"path", false⟩]⟩]
  distinct := by simp [Data.Distinct, Fields.Distinct]

/-- The pattern binds `context` to the field, which is then passed as the context. -/
theorem context_captured : ¬ FieldSum ⟨fun _ => false, fun _ _ _ => false⟩ frame := by
  rintro ⟨method, program, hmethod, hprogram, -⟩
  cases hmethod
  have hnone : (none : Option Program) = some program := hprogram
  cases hnone

end PriorityLfu.Derive

import ChanFlow.Proofs.RoundTrip

/-!
Which protocols have a text that can be read.

Whatever is read from a text has names of the grammar, and two equivalent protocols have the same names.
So the text of a protocol is read as a protocol equivalent to it exactly if all its names and capacities
follow the grammar.
-/
open List

namespace ChanFlow.Protocol

open Text Text.Parser

variable {w : String} {ps : List Parameter} {q p : Protocol}

/-! ### What is read -/

namespace Grammar

theorem yields_scanName {continues : Char → Bool} {cs taken rest : List Char}
    (scanned : scanName continues cs = some (taken, rest)) :
    ∃ c more, taken = c :: more ∧ startsName c = true ∧ more.all continues = true := by
  cases cs with
  | nil => cases scanned
  | cons c cs =>
    rw [scanName] at scanned
    split at scanned
    · next starts =>
      obtain ⟨rfl, -⟩ := Prod.mk.inj (Option.some.inj scanned)
      exact ⟨c, _, rfl, starts, all_takeWhile⟩
    · cases scanned

theorem yields_name : Yields name (isName · = true) := by
  have word : Yields (token (scanName isNameChar) : Rule (List Char)) fun taken =>
    isName (String.ofList taken) = true := by
    apply yields_token
    intro cs taken rest scanned
    obtain ⟨c, more, rfl, starts, all⟩ := yields_scanName scanned
    simp only [isName, String.toList_ofList, starts, all, Bool.and_self]
  exact word.lexeme.bind fun _ holds => yields_pure holds

theorem yields_names : Yields names fun as => ∀ a ∈ as, isName a = true := by
  refine yields_after fun _ => yields_name.sepBy1.rule.opt.bind fun found all => ?_
  refine yields_after fun _ => yields_pure ?_
  cases found with
  | none => simp
  | some as => exact all as rfl

theorem yields_capacity : Yields capacity Word.Fits := by
  refine yields_any.bind fun numeral _ => yields_report.bind fun _ sound => yields_pure ?_
  by_cases fits : Word.Fits (intOfNumeral numeral)
  · exact fits
  · simp [fits] at sound

theorem yields_onName {make : String → Statement}
    (legible : ∀ n, isName n = true → (make n).Legible) : Yields (onName w make) Statement.Legible :=
  Yields.rule (yields_after fun _ => yields_name.bind fun n ok => yields_pure (legible n ok))

theorem yields_onRoutine {make : String → List String → Statement}
    (legible : ∀ n as, isName n = true → (∀ a ∈ as, isName a = true) → (make n as).Legible) :
    Yields (onRoutine w make) Statement.Legible :=
  Yields.rule (yields_after fun _ => yields_name.bind fun n ok => yields_names.bind fun as oks =>
    yields_pure (legible n as ok oks))

theorem yields_statement {body : Rule (List Statement)} (inner : Yields body fun ss => ∀ s ∈ ss, s.Legible) :
    Yields (statement body) Statement.Legible := by
  apply yields_firstOf
  refine ⟨?_, ?_, ?_, ?_, ?_, ?_, ?_, ?_, ?_⟩
  · refine .rule (yields_after fun _ => yields_name.bind fun n ok => yields_after fun _ => ?_)
    exact yields_capacity.bind fun i fits => yields_pure (Statement.spells_newChan.2 ⟨ok, fits⟩)
  · exact yields_onName fun _ ok => Statement.spells_send.2 ok
  · exact yields_onName fun _ ok => Statement.spells_recv.2 ok
  · exact yields_onName fun _ ok => Statement.spells_close.2 ok
  · exact yields_onRoutine fun _ _ ok oks => Statement.spells_call.2 ⟨ok, oks⟩
  · exact yields_onRoutine fun _ _ ok oks => Statement.spells_spawn.2 ⟨ok, oks⟩
  · refine .rule (yields_after fun _ => inner.bind fun t onTrue => yields_after fun _ => ?_)
    refine inner.bind fun e onFalse => yields_after fun _ => yields_pure ?_
    exact Statement.spells_branch.2 ⟨onTrue, onFalse⟩
  · refine .rule (yields_after fun _ => ?_)
    refine (Yields.rule (yields_after fun _ => inner)).many.bind fun cs all => yields_after fun _ => ?_
    exact yields_pure (Statement.spells_select.2 all)
  · exact Yields.rule (yields_after fun _ => yields_pure Statement.spells_tau)

theorem yields_bodyWithin (n : Nat) : Yields (bodyWithin n) fun ss => ∀ s ∈ ss, s.Legible := by
  induction n with
  | zero => exact ⟨fun _ _ found => nomatch found⟩
  | succ n ih =>
    refine .rule (.many ?_)
    exact (yields_statement ih).bind fun s legible => yields_after fun _ => yields_pure legible

theorem yields_body : Yields body fun ss => ∀ s ∈ ss, s.Legible := ⟨fun c => (yields_bodyWithin _).value c⟩

end Grammar

/-- Every name and capacity of the routine follows the grammar. -/
structure Routine.Legible (r : Routine) : Prop where
  name : isName r.name = true
  params : ∀ q ∈ r.params, isName q.callee = true
  stmts : ∀ s ∈ r.stmts, s.Legible

theorem Routine.mem_addParam {p q : Parameter} (member : q ∈ addParam ps p) : q ∈ ps ∨ q = p := by
  unfold addParam at member
  split at member
  · exact .inl member
  · simpa using member

theorem Routine.mem_addParams {r : Routine} {q : Parameter}
    (member : q ∈ (r.addParams ps).params) : q ∈ r.params ∨ q ∈ ps := by
  unfold addParams at member
  dsimp only at member
  generalize r.params = own at member ⊢
  induction ps generalizing own with
  | nil => exact .inl member
  | cons p ps ih =>
    rcases ih _ member with old | new
    · rcases mem_addParam old with old | rfl
      · exact .inl old
      · exact .inr mem_cons_self
    · exact .inr (mem_cons_of_mem p new)

theorem Grammar.yields_routine : Yields routine Routine.Legible := by
  refine .rule (yields_after fun _ => yields_name.bind fun n ok => yields_names.bind fun as oks => ?_)
  refine yields_after fun _ => yields_body.bind fun ss all => yields_pure ⟨ok, fun q member => ?_, all⟩
  rcases Routine.mem_addParams member with empty | given
  · exact nomatch empty
  · obtain ⟨a, named, rfl⟩ := mem_map.1 given
    exact oks a named

theorem legible_addAll {found : List (Except String Routine)} (added : p.addAll found = .ok q)
    (start : ∀ r ∈ p.routines, r.Legible) (each : ∀ item ∈ found, ∀ r, item = .ok r → r.Legible) :
    ∀ r ∈ q.routines, r.Legible := by
  induction found generalizing p with
  | nil =>
    obtain rfl := Except.ok.inj added
    exact start
  | cons item rest ih =>
    rw [forall_mem_cons] at each
    cases item with
    | error numeral => cases added
    | ok r =>
      rw [addAll] at added
      split at added
      · cases added
      · next p' new =>
        unfold add? at new
        split at new
        · cases new
        · obtain rfl := Option.some.inj new
          refine ih added (fun r' member => ?_) each.2
          rcases mem_append.1 member with old | new
          · exact start r' old
          · obtain rfl := mem_singleton.1 new
            exact each.1 r' rfl

/-- A protocol read from a text has names and capacities of the grammar. -/
theorem legible_of_read {text : String} (found : read text = .ok q) : ∀ r ∈ q.routines, r.Legible := by
  have yields : Yields Grammar.protocol (fun items => ∀ item ∈ items, ∀ r, item = .ok r →
    Routine.Legible r) False := by
    refine .rule (yields_after fun _ => Grammar.yields_routine.checked.many.bind fun items all => ?_)
    exact yields_after fun _ => yields_pure all
  unfold read at found
  split at found
  · exact nomatch found
  · next m run => exact legible_addAll found (fun _ member => nomatch member) (yields.run run)

/-! ### Equivalent protocols -/

namespace Statement

mutual

theorem shown_erased : (s : Statement) → s.erased.names = s.names ∧ s.erased.capacities = s.capacities
  | branch t e => by simp [erased, names, capacities, shown_erasedAll t, shown_erasedAll e]
  | select cs => by simp [erased, names, capacities, shown_erasedCases cs]
  | newChan .. | send _ | recv _ | close _ | call .. | spawn .. | tau => ⟨rfl, rfl⟩

theorem shown_erasedAll : (ss : List Statement) →
    namesOfAll (erasedAll ss) = namesOfAll ss ∧ capacitiesOfAll (erasedAll ss) = capacitiesOfAll ss
  | [] => ⟨rfl, rfl⟩
  | s :: ss => by
    have rest := shown_erasedAll ss
    have first := shown_erased s
    cases s <;> simp_all [erasedAll, isTau, namesOfAll, capacitiesOfAll, names, capacities]

theorem shown_erasedCases : (cs : List (List Statement)) →
    namesOfCases (erasedCases cs) = namesOfCases cs ∧ capacitiesOfCases (erasedCases cs) = capacitiesOfCases cs
  | [] => ⟨rfl, rfl⟩
  | c :: cs => by simp [erasedCases, namesOfCases, capacitiesOfCases, shown_erasedAll c, shown_erasedCases cs]

end

end Statement

/-- Equivalent protocols show the same names and capacities. -/
theorem shown_of_equivalent (same : p.equivalent q = true) : p.names = q.names ∧ p.capacities = q.capacities := by
  have shown : ∀ p : Protocol, p.erased.names = p.names ∧ p.erased.capacities = p.capacities := by
    simp [names, capacities, erased, flatMap_map, Routine.names, Routine.erased, Statement.shown_erasedAll,
      Function.comp_def]
  rw [← (shown p).1, ← (shown p).2, equivalent_iff.1 same]
  exact shown q

/-- The text of a protocol is read as a protocol equivalent to it exactly if its names and capacities follow
the grammar. -/
theorem readable_iff (distinct : p.Distinct) :
    (∃ q, read p.render = .ok q ∧ p.equivalent q = true) ↔
      (∀ n ∈ p.names, isName n = true) ∧ ∀ c ∈ p.capacities, Word.Fits c := by
  constructor
  · rintro ⟨q, found, same⟩
    have legible := legible_of_read found
    obtain ⟨names, capacities⟩ := shown_of_equivalent same
    rw [names, capacities]
    constructor
    · intro n shown
      obtain ⟨r, member, here⟩ := mem_flatMap.1 shown
      obtain ⟨name, params, stmts⟩ := legible r member
      rcases mem_append.1 here with own | inner
      · rcases mem_cons.1 own with rfl | param
        · exact name
        · obtain ⟨q, given, rfl⟩ := mem_map.1 param
          exact params q given
      · exact (Statement.spells_of_all.2 stmts).1 n inner
    · intro c shown
      obtain ⟨r, member, here⟩ := mem_flatMap.1 shown
      exact (Statement.spells_of_all.2 (legible r member).stmts).2 c here
  · rintro ⟨names, capacities⟩
    exact ⟨p.printed, read_render ⟨distinct, names, capacities⟩, equivalent_printed p⟩

end ChanFlow.Protocol

import Bourse.Proofs.Engine.Suited
import Bourse.Proofs.Run.Alike
import Bourse.Proofs.Run.Declined
import Bourse.Proofs.Run.Routing

/-!
# Calls about two instruments commute

The books share the routes and the counters. A call takes numbers, and it takes and frees
identities, but it leaves the other books and the routes that lead to them as they are. So
a call about another instrument finds its place as it would have found it
(`Kempt.place?_same`), and comes to the same.

There is one thing it may find otherwise. An identity is live in one book only, so an
intent under an identity that is live in the other book is refused, and is accepted once
the other call has filled that order. That is what `Spares` excludes. Nothing else keeps
two calls about two instruments and two identities from commuting.
-/

namespace Bourse

/-- Two engines with the same instruments, routes to the same slots, the same counters, and books
that are alike. -/
structure Engine.Alike (e e' : Engine) : Prop where
  rule_eq : e'.rule = e.rule
  slots : List.Forall₂ Slot.Alike e.slots e'.slots
  routes : ∀ id, (e'.routes.get? id).map Route.slot = (e.routes.get? id).map Route.slot
  counters_eq : e'.counters = e.counters

/-- The same two calls in either order, each with what it comes to. -/
structure Engine.Commute (e : Engine) (a b b' a' : Call) : Prop where
  first : (e.perform a).Alike ((e.perform b').after.perform a')
  second : ((e.perform a).after.perform b).Alike (e.perform b')
  after : ((e.perform a).after.perform b).after.Alike ((e.perform b').after.perform a').after

theorem Call.lists_of_id? {call : Call} {id : OrderId} (h : call.id? = some id) :
    call.lists = false := by
  cases call with
  | addInstrument config => cases h
  | submit _ _ | cancel _ _ | modify _ _ _ => rfl

theorem Call.Again.symm {call call' : Call} (h : call.Again call') : call'.Again call := by
  cases h with
  | addInstrument config => exact .addInstrument config
  | submit world world' intent => exact .submit world' world intent
  | cancel world world' id => exact .cancel world' world id
  | modify world world' id request => exact .modify world' world id request

theorem Call.Again.id?_eq {call call' : Call} (h : call.Again call') : call'.id? = call.id? := by
  cases h <;> rfl

theorem Call.Again.lists_eq {call call' : Call} (h : call.Again call') :
    call'.lists = call.lists := by
  cases h <;> rfl

theorem Call.Again.place?_eq {call call' : Call} (h : call.Again call') (e : Engine) :
    e.place? call' = e.place? call := by
  cases h <;> rfl

theorem Call.Again.deskOf?_eq {call call' : Call} (h : call.Again call') (e : Engine) :
    e.deskOf? call' = e.deskOf? call := by
  rw [Engine.deskOf?_eq, h.place?_eq, Engine.deskOf?_eq]

theorem Answer.Alike.declines_eq {answer answer' : Answer} (h : answer.Alike answer') :
    answer'.declines = answer.declines := by
  cases h with
  | accepted _ | rejected _ | cancelled _ => rfl
  | modified hr => cases hr <;> rfl

namespace Engine

theorem Enrols.id_eq {e : Engine} {call : Call} {x y : OrderId} (h : e.Enrols x call)
    (hy : call.id? = some y) : x = y := by
  cases call with
  | submit world intent => exact h.2.symm.trans (entering_id world hy)
  | addInstrument _ | cancel _ _ | modify _ _ _ => exact h.elim

theorem Enrols.of_place {e e' : Engine} {call : Call} {x : OrderId} (h : e'.Enrols x call)
    (hx : call.id? = some x) (hplace : e'.place? call = e.place? call) : e.Enrols x call := by
  cases call with
  | submit world intent =>
      obtain ⟨⟨i, slot, hfound, hchecked⟩, -⟩ := h
      exact ⟨⟨i, slot, hplace.symm.trans hfound, hchecked⟩, entering_id world hx⟩
  | addInstrument _ | cancel _ _ | modify _ _ _ => exact h.elim

theorem Enrols.again {e : Engine} {call call' : Call} {x : OrderId} (h : e.Enrols x call)
    (hagain : call.Again call') (hx : call.id? = some x) : e.Enrols x call' := by
  cases hagain with
  | submit world world' intent => exact ⟨h.1, entering_id world' hx⟩
  | addInstrument _ | cancel _ _ _ | modify _ _ _ _ => exact h.elim

/-- If a call sends in a `Valid` intent under an identity that rests, it still rests after the other
call. -/
def Spares (e : Engine) (call other : Call) : Prop :=
  ∀ x, e.Enrols x call → x ∈ e.restingIds → x ∈ (e.perform other).after.restingIds

/-- The calls are about different slots, if they are about slots. -/
def Parts (e : Engine) (a b : Call) : Prop := ∀ i, e.deskOf? a = some i → e.deskOf? b ≠ some i

theorem Parts.symm {e : Engine} {a b : Call} (h : e.Parts a b) : e.Parts b a :=
  fun i hb ha => h i ha hb

theorem Parts.again {e : Engine} {a b b' : Call} (h : e.Parts a b) (hb : b.Again b') :
    e.Parts a b' := by
  intro i hi
  rw [hb.deskOf?_eq]
  exact h i hi

/-- What is known of an engine after so many calls, all of which were answered. -/
structure Kempt (n : Nat) (e : Engine) : Prop where
  steady : e.SteadyAfter n
  tidy : e.Tidy
  listed : e.Listed

section Kempt

variable {n m : Nat} {e e' : Engine} {i : Nat} {slot : Slot} {a b call other : Call} {x y : OrderId}

theorem Kempt.sound (h : e.Kempt n) : e.Sound := Steady.sound h.steady

theorem Kempt.lively (h : e.Kempt n) : e.Lively := Steady.lively h.steady

theorem Kempt.answered (h : e.Kempt n) (hn : n ≤ longRun) (call : Call) :
    (e.perform call).answer.fault? = none :=
  (h.steady.next_of_le hn call).1

theorem Kempt.perform (h : e.Kempt n) (hn : n ≤ longRun) (horder : call.lists = false) :
    (e.perform call).after.Kempt (n + 1) where
  steady := (h.steady.next_of_le hn call).2
  tidy := perform_tidy h.tidy h.sound h.lively call (h.answered hn call)
  listed := h.listed.of_configs (unshaken_configs.perform horder fun _ _ => trivial)

/-! ## What a call leaves as it is -/

theorem length_perform (horder : call.lists = false) :
    (e.perform call).after.slots.length = e.slots.length := by
  have hconfigs := congrArg List.length
    (unshaken_configs.perform (e := e) horder fun _ _ => trivial)
  simpa only [configs, List.length_map] using hconfigs

/-- `lookup?` finds a symbol in the same place where its slot is the same. -/
theorem Listed.lookup?_same {symbol : String} (h : e.Listed) (h' : e'.Listed)
    (hc : e'.configs = e.configs)
    (hkept : ∀ i slot, e.lookup? symbol = some (i, slot) → e'.slots[i]? = some slot) :
    e'.lookup? symbol = e.lookup? symbol := by
  cases hl : e.lookup? symbol with
  | some place => rw [← symbol_of_lookup? hl, h'.lookup?_eq (hkept _ _ hl)]
  | none =>
      cases hl' : e'.lookup? symbol with
      | none => rfl
      | some place' =>
          obtain ⟨i, slot'⟩ := place'
          have hconfig := congrArg (fun cs : List InstrumentConfig => cs[i]?) hc
          simp only [configs, List.getElem?_map, slot_of_lookup? hl', Option.map_some] at hconfig
          obtain ⟨slot, hslot, hsame⟩ := Option.map_eq_some_iff.mp hconfig.symm
          have hfound := h.lookup?_eq hslot
          rw [hsame, symbol_of_lookup? hl', hl] at hfound
          cases hfound

theorem locate?_of_unrouted (h : e.routes.get? x = none) : e.locate? x = none := by
  unfold locate?
  rw [h]
  rfl

theorem Tidy.unrouted (h : e.Tidy) (hl : e.locate? x = none) : e.routes.get? x = none := by
  cases hr : e.routes.get? x with
  | none => rfl
  | some r =>
      obtain ⟨o, ⟨slot, hslot, -⟩, -⟩ := h x r hr
      unfold locate? at hl
      rw [hr] at hl
      change (e.slots[r.slot]?).bind (fun slot => some (r.slot, slot)) = none at hl
      rw [hslot] at hl
      cases hl

/-- `locate?` finds an identity in the same place where its slot is the same, or if it still has no
route. -/
theorem Tidy.locate?_same (h : e.Tidy) (hs' : e'.Sound)
    (hfree : e.routes.get? x = none → e'.routes.get? x = none)
    (hkept : ∀ i slot, e.locate? x = some (i, slot) → e'.slots[i]? = some slot) :
    e'.locate? x = e.locate? x := by
  cases hl : e.locate? x with
  | none => exact locate?_of_unrouted (hfree (h.unrouted hl))
  | some place =>
      obtain ⟨i, slot⟩ := place
      obtain ⟨o, ho, rfl⟩ := h.has hl
      have hslot := hkept i slot hl
      obtain ⟨slot', hfound, -⟩ := locate?_of_rests hs' ⟨slot, hslot, ho⟩
      rw [hfound]
      have hslot' := (route_of_locate? hfound).1
      rw [hslot] at hslot'
      cases hslot'
      rfl

theorem Kempt.unrouted (h : e.Kempt n) (hy : other.id? = some y) (hne : x ≠ y)
    (hfree : e.routes.get? x = none) : (e.perform other).after.routes.get? x = none :=
  perform_unrouted h.sound.fills h.sound.toInOrder h.lively.live
    (fun henrols => hne (henrols.id_eq hy)) hfree

/-- A call finds its `place?` as it was before a call about another slot and another identity. -/
theorem Kempt.place?_same (h : e.Kempt n) (hn : n ≤ longRun) (hx : call.id? = some x)
    (hy : other.id? = some y) (hne : x ≠ y) (hparts : e.Parts call other) :
    (e.perform other).after.place? call = e.place? call := by
  have horder := Call.lists_of_id? hy
  have h' := h.perform hn horder
  have hkept (i : Nat) (slot : Slot) (hplace : e.place? call = some (i, slot)) :
      (e.perform other).after.slots[i]? = some slot := by
    rw [perform_elsewhere horder (hparts i (by rw [deskOf?_eq, hplace]; rfl))]
    exact slot_of_place? hplace
  cases call with
  | addInstrument config => rfl
  | submit world intent =>
      exact h.listed.lookup?_same h'.listed (unshaken_configs.perform horder fun _ _ => trivial)
        hkept
  | cancel world id | modify world id request =>
      cases hx
      exact h.tidy.locate?_same h'.sound (h.unrouted hy hne) hkept

theorem Kempt.deskOf?_same (h : e.Kempt n) (hn : n ≤ longRun) (hx : call.id? = some x)
    (hy : other.id? = some y) (hne : x ≠ y) (hparts : e.Parts call other) :
    (e.perform other).after.deskOf? call = e.deskOf? call := by
  rw [deskOf?_eq, h.place?_same hn hx hy hne hparts, deskOf?_eq]

/-- A call finds its identity routed or not, as before a call that `Spares` it. -/
theorem Kempt.routed_iff (h : e.Kempt n) (hn : n ≤ longRun) (hy : other.id? = some y) (hne : x ≠ y)
    (hspares : e.Spares call other) (henrols : e.Enrols x call) :
    ((e.perform other).after.routes.get? x).isSome ↔ (e.routes.get? x).isSome := by
  have h' := h.perform hn (Call.lists_of_id? hy)
  constructor
  · intro hsome
    by_contra hnone
    rw [h.unrouted hy hne (Option.not_isSome_iff_eq_none.mp hnone)] at hsome
    cases hsome
  · intro hsome
    have hrests := (h.tidy.contains_iff h.sound x).mp hsome
    exact (h'.tidy.contains_iff h'.sound x).mpr (hspares x henrols hrests)

/-! ## Engines that are alike -/

theorem AlikeAt.of_eq {f f' : Engine} (h : e.AlikeAt i e') (hslot : f.slots[i]? = e.slots[i]?)
    (hslot' : f'.slots[i]? = e'.slots[i]?) : f.AlikeAt i f' := by
  obtain ⟨s, s', hs, hs', halike⟩ := h
  exact ⟨s, s', hslot.trans hs, hslot'.trans hs', halike⟩

theorem slots_of_alikeAt (hlength : e.slots.length = e'.slots.length)
    (h : ∀ i < e.slots.length, e.AlikeAt i e') : List.Forall₂ Slot.Alike e.slots e'.slots := by
  refine List.forall₂_iff_get.mpr ⟨hlength, fun i hi hi' => ?_⟩
  obtain ⟨s, s', hs, hs', halike⟩ := h i hi
  rw [List.getElem?_eq_getElem hi] at hs
  rw [List.getElem?_eq_getElem hi'] at hs'
  cases hs
  cases hs'
  exact halike

/-- Where books are `AlikeAt` their places routes lead to the same slots. -/
theorem Kempt.routes_alike (h : e.Kempt n) (h' : e'.Kempt m)
    (hlength : e.slots.length = e'.slots.length) (halike : ∀ i < e.slots.length, e.AlikeAt i e')
    (id : OrderId) :
    (e'.routes.get? id).map Route.slot = (e.routes.get? id).map Route.slot := by
  -- which slot an identity is routed to can be read from the books
  have hslot {f : Engine} {k : Nat} (hf : f.Kempt k) (i : Nat) :
      (f.routes.get? id).map Route.slot = some i ↔
        ∃ slot, f.slots[i]? = some slot ∧ slot.book.Has id := by
    rw [Option.map_eq_some_iff, hf.tidy.routed_iff hf.sound]
    constructor
    · rintro ⟨o, ⟨slot, hs, ho⟩, hid⟩
      exact ⟨slot, hs, o, ho, hid⟩
    · rintro ⟨slot, hs, o, ho, hid⟩
      exact ⟨o, ⟨slot, hs, ho⟩, hid⟩
  refine Option.ext fun i => ?_
  rw [hslot h', hslot h]
  by_cases hi : i < e.slots.length
  · obtain ⟨s, s', hs, hs', hsame⟩ := halike i hi
    have hhas := hsame.book.has_iff (h.sound.book hs) (h'.sound.book hs') id
    simp only [hs, hs', Option.some.injEq, exists_eq_left']
    exact hhas
  · have hi' : ¬ i < e'.slots.length := hlength ▸ hi
    simp only [List.getElem?_eq_none (Nat.le_of_not_lt hi),
      List.getElem?_eq_none (Nat.le_of_not_lt hi'), reduceCtorEq, false_and, exists_false]

/-! ## The square -/

theorem counters_square {c c₁ c₂ c₁₂ c₂₁ : Counters} (hfirst : Counters.Apace c c₁ c₂ c₂₁)
    (hsecond : Counters.Apace c₁ c₁₂ c c₂) : c₂₁ = c₁₂ := by
  obtain ⟨harrivals, hevents, hmatchings⟩ := hfirst
  obtain ⟨karrivals, kevents, kmatchings⟩ := hsecond
  exact Counters.ext (by omega) (by omega) (by omega)

/-- Either of two calls leaves the slot of the other as it is, and both leave all others. So if each
leaves its own slot alike, before the other and after it, they leave all alike. -/
theorem alikeAt_square {a' b' : Call} (ha : a.Again a') (hb : b.Again b')
    (horder : a.lists = false) (horder' : b.lists = false) (hparts : e.Parts a b)
    (hdesk : (e.perform b').after.deskOf? a = e.deskOf? a)
    (hdesk' : (e.perform a).after.deskOf? b = e.deskOf? b)
    (hfirst : Turn.AlikeAt (e.deskOf? a) (e.perform a) ((e.perform b').after.perform a'))
    (hsecond : Turn.AlikeAt (e.deskOf? b) ((e.perform a).after.perform b) (e.perform b'))
    (hi : i < e.slots.length) :
    ((e.perform a).after.perform b).after.AlikeAt i ((e.perform b').after.perform a').after := by
  have hslot := List.getElem?_eq_getElem hi
  by_cases hia : e.deskOf? a = some i
  · have hkept := perform_elsewhere horder' (hdesk' ▸ hparts i hia)
    exact (hfirst.slot i hia).of_eq hkept rfl
  · have hkept := perform_elsewhere (ha.lists_eq.trans horder) ((ha.deskOf?_eq _).trans hdesk ▸ hia)
    by_cases hib : e.deskOf? b = some i
    · exact (hsecond.slot i hib).of_eq rfl hkept
    · have hleft := (perform_elsewhere horder' (hdesk' ▸ hib)).trans (perform_elsewhere horder hia)
      have hright := perform_elsewhere (hb.lists_eq.trans horder') (hb.deskOf?_eq e ▸ hib)
      exact alikeAt_of_eq (hleft.trans hslot) ((hkept.trans hright).trans hslot)

/-- Calls that spare each other, as `Spares` has it, commute. -/
theorem Kempt.commute {a' b' : Call} (h : e.Kempt n) (hn : n + 1 ≤ longRun) (ha : a.Again a')
    (hb : b.Again b') (hx : a.id? = some x) (hy : b.id? = some y) (hne : x ≠ y)
    (hparts : e.Parts a b) (hspares : e.Spares a b') (hspares' : e.Spares b' a) :
    e.Commute a b b' a' := by
  have hle : n ≤ longRun := Nat.le_of_succ_le hn
  have hx' : a'.id? = some x := ha.id?_eq.trans hx
  have hy' : b'.id? = some y := hb.id?_eq.trans hy
  have hparts' : e.Parts a b' := hparts.again hb
  have h₁ := h.perform hle (Call.lists_of_id? hx)
  have h₂ := h.perform hle (Call.lists_of_id? hy')
  have h₁₂ := h₁.perform hn (Call.lists_of_id? hy)
  have h₂₁ := h₂.perform hn (Call.lists_of_id? hx')
  -- each call finds its place as if the other had not been made
  have hplace := h.place?_same hle hx hy' hne hparts'
  have hplace' := h.place?_same hle hy hx hne.symm hparts.symm
  have hfirst := perform_alike h.steady h₂.steady ha hx hplace
    (h.routed_iff hle hy' hne hspares) (h.answered hle a) (h₂.answered hn a')
  have hsecond := perform_alike h₁.steady h.steady hb hy hplace'.symm
    (fun henrols =>
      (h.routed_iff hle hx hne.symm hspares' ((henrols.of_place hy hplace').again hb hy)).symm)
    (h₁.answered hn b) (h.answered hle b')
  have hdesk := h.deskOf?_same hle hx hy' hne hparts'
  have hdesk' := h.deskOf?_same hle hy hx hne.symm hparts.symm
  rw [hdesk'] at hsecond
  have halike (i : Nat) (hi : i < e.slots.length) :=
    alikeAt_square ha hb (Call.lists_of_id? hx) (Call.lists_of_id? hy) hparts hdesk hdesk' hfirst
      hsecond hi
  have hlength : ((e.perform a).after.perform b).after.slots.length = e.slots.length :=
    (length_perform (Call.lists_of_id? hy)).trans (length_perform (Call.lists_of_id? hx))
  have hlength' : ((e.perform b').after.perform a').after.slots.length = e.slots.length :=
    (length_perform (Call.lists_of_id? hx')).trans (length_perform (Call.lists_of_id? hy'))
  have hsame := hlength.trans hlength'.symm
  have hcounters := hfirst.counters
  have hcounters' := hsecond.counters
  simp only [before_perform] at hcounters hcounters'
  exact
    { first := hfirst.toAlike
      second := hsecond.toAlike
      after :=
        { rule_eq := by rw [h₁₂.sound.rule_eq, h₂₁.sound.rule_eq]
          slots := slots_of_alikeAt hsame fun i hi => halike i (hlength ▸ hi)
          routes := h₁₂.routes_alike h₂₁ hsame fun i hi => halike i (hlength ▸ hi)
          counters_eq := counters_square hcounters hcounters' } }

/-- A call that is declined alike before the other call and after it is spared: an intent under an
identity that rests is refused, and under one that does not it is accepted. -/
theorem Kempt.spares_of_declines {call' : Call} (h : e.Kempt n) (hn : n + 1 ≤ longRun)
    (hagain : call.Again call') (hx : call.id? = some x) (hy : other.id? = some y) (hne : x ≠ y)
    (hparts : e.Parts call other)
    (hsame : ((e.perform other).after.perform call').answer.declines =
      (e.perform call).answer.declines) : e.Spares call other := by
  intro z henrols hz
  obtain rfl : z = x := henrols.id_eq hx
  have hle : n ≤ longRun := Nat.le_of_succ_le hn
  have h' := h.perform hle (Call.lists_of_id? hy)
  have hplace := h.place?_same hle hx hy hne hparts
  cases hagain with
  | addInstrument _ | cancel _ _ _ | modify _ _ _ _ => exact henrols.elim
  | submit world world' intent =>
      have hid : (e.entering world intent).id = z := entering_id world hx
      have hid' : ((e.perform other).after.entering world' intent).id = z := entering_id world' hx
      obtain ⟨i, slot, hfound, hchecked⟩ := henrols.1
      have hrefused := (h.tidy.refused_iff h.sound henrols.1 _).mpr ⟨hid.symm ▸ hz, rfl⟩
      have hdeclined : (e.perform (.submit world intent)).answer.declines = true := by
        change (Answer.submitted (e.submit world intent).answer).declines = true
        rw [hrefused]
        rfl
      obtain ⟨res, ha⟩ := Engine.answered (h'.answered hn (.submit world' intent))
      cases res with
      | ok r =>
          rw [hdeclined] at hsame
          change (Answer.submitted ((e.perform other).after.submit world' intent).answer).declines =
            true at hsame
          rw [ha] at hsame
          cases hsame
      | error why =>
          have hvalid : (e.perform other).after.Valid intent :=
            ⟨i, slot, hplace.trans hfound, hchecked⟩
          exact hid' ▸ ((h'.tidy.refused_iff h'.sound hvalid why).mp ha).1

end Kempt

end Engine

theorem History.kempt {past : List Turn} {e : Engine} (h : Run past e)
    (hlen : past.length < longRun) : e.Kempt past.length :=
  ⟨(h.steady hlen).2, h.tidy (h.steady hlen).1, h.listed⟩

/-- After fewer than ten thousand million calls, two calls that name different orders and are about
different slots `Commute`, whatever surroundings they are made in, if and only if neither sends in a
valid intent under an identity that rests until the other call. -/
theorem calls_about_two_instruments_commute {past : List Turn} {e : Engine} (h : Run past e)
    (hlen : past.length < 10000000000) {a a' b b' : Call} (ha : a.Again a') (hb : b.Again b')
    {x y : OrderId} (hx : a.id? = some x) (hy : b.id? = some y) (hne : x ≠ y)
    (hparts : e.Parts a b) : e.Commute a b b' a' ↔ e.Spares a b' ∧ e.Spares b' a := by
  have hkempt := h.kempt hlen
  have hn : past.length + 1 ≤ longRun := hlen
  have hy' : b'.id? = some y := hb.id?_eq.trans hy
  constructor
  · intro hcommute
    have hparts' : e.Parts a b' := hparts.again hb
    exact ⟨hkempt.spares_of_declines hn ha hx hy' hne hparts' hcommute.first.answer.declines_eq,
      hkempt.spares_of_declines hn hb.symm hy' hx hne.symm hparts'.symm
        hcommute.second.answer.declines_eq.symm⟩
  · rintro ⟨hspares, hspares'⟩
    exact hkempt.commute hn ha hb hx hy hne hparts hspares hspares'

/-- Two are offered in "Y". -/
def offered : List Call :=
  [.addInstrument (.plain "X"), .addInstrument (.plain "Y"),
    .submit (.handing 1) (.limit "Y" .sell 1 (.scaled 2 0))]

/-- One is offered in "X" under the identity of the offer in "Y". -/
def contested (world : Surroundings) : Call :=
  .submit world { OrderIntent.limit "X" .sell 1 1 with orderId := some ⟨.ofNat 1⟩ }

/-- Some of what is offered in "Y" is bought. -/
def bought (world : Surroundings) (quantity : Quantity) : Call :=
  .submit world { OrderIntent.limit "Y" .buy 1 quantity with orderId := some ⟨.ofNat 2⟩ }

/-- Of the offer in "Y" one is left, so its identity stays taken whether one is bought before or
after. -/
theorem calls_about_two_instruments_commute_offered :
    let e := ((Engine.empty .priceTime).follow [] offered).2
    e.Commute (contested (.handing 3)) (bought (.handing 4) 1) (bought (.handing 5) 1)
      (contested (.handing 6)) := by
  have hparts : ((Engine.empty .priceTime).follow [] offered).2.Parts (contested (.handing 3))
      (bought (.handing 4) 1) := by
    intro i hi
    have hdesk : ((Engine.empty .priceTime).follow [] offered).2.deskOf? (contested (.handing 3)) =
        some 0 := by decide +kernel
    cases hdesk.symm.trans hi
    decide +kernel
  refine (calls_about_two_instruments_commute (History.start.follow offered) (by decide +kernel)
    (.submit _ _ _) (.submit _ _ _) rfl rfl (by decide) hparts).mpr
      ⟨fun x hx _ => ?_, fun x hx => ?_⟩
  · obtain rfl : x = ⟨.ofNat 1⟩ := hx.id_eq rfl
    decide +kernel
  · obtain rfl : x = ⟨.ofNat 2⟩ := hx.id_eq rfl
    decide +kernel

/-- If two are bought the identity is free after that, and was taken before. -/
theorem not_commute_of_filled :
    ¬ ∀ (past : List Turn) (e : Engine) (a b : Call) (x y : OrderId), Run past e →
      past.length < 10000000000 → a.id? = some x → b.id? = some y → x ≠ y →
      (∃ i j, e.deskOf? a = some i ∧ e.deskOf? b = some j ∧ i ≠ j) →
      ((e.perform b).after.perform a).answer.declines = (e.perform a).answer.declines := by
  intro hall
  have hdeclines := hall _ _ (contested (.handing 3)) (bought (.handing 4) (.scaled 2 0)) _ _
    (History.start.follow offered) (by decide +kernel) rfl rfl (by decide)
    ⟨0, 1, by decide +kernel, by decide +kernel, by decide⟩
  revert hdeclines
  decide +kernel

end Bourse

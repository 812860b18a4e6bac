import Bourse.Proofs.Engine.Aging
import Bourse.Proofs.Run.Sequence

/-!
# The life of an order

What has been `delivered` about an order since it was accepted is its life, written down
by others for the most part: by the call that entered it, by the calls of those it traded
with, and by those that modified or cancelled it. Each call that names the order tells how
it stands exactly once, and names it no more after that (`ToldOnce`). So the updates of an
order follow each other as its statuses do, in a `Course`: it is new, then filled in part,
and at last filled or cancelled, once. The books know when that has come: an order has
been told to be over just when it rests no more. From then on no event `Concerns` it, for
nobody trades with what does not rest, and nobody finds it to cancel or to modify it.

What has been told so far is the `Chronicle` of the order; each turn carries it on, and
`History.chronicle` is the induction over the turns.
-/

namespace Bourse

/-- The event names an order, other than to reject it. -/
def Event.Concerns (ev : Event) (id : OrderId) : Prop :=
  match ev with
  | .trade t => t.maker = id ∨ t.taker = id
  | .update u => u.Concerns id

/-- The event tells how an order stands. -/
def Event.Tells (ev : Event) (id : OrderId) : Prop := ∃ u, ev = .update u ∧ u.Concerns id

/-- The event tells that an order has come to its end, by a terminal status. -/
def Event.Ends (ev : Event) (id : OrderId) : Prop :=
  ∃ u, ev = .update u ∧ u.Concerns id ∧ u.status.isTerminal = true

/-- The updates among events that tell of an order. -/
def updatesOf (id : OrderId) (events : List Event) : List OrderUpdate :=
  (events.filterMap Event.update?).filter fun u => u.Concerns id

section UpdatesOf

variable {id : OrderId} {xs ys : List Event} {u : OrderUpdate}

@[simp] theorem updatesOf_append :
    updatesOf id (xs ++ ys) = updatesOf id xs ++ updatesOf id ys := by
  simp [updatesOf]

theorem updatesOf_update (h : u.Concerns id) :
    updatesOf id (.update u :: xs) = u :: updatesOf id xs := by
  simp [updatesOf, Event.update?, h]

theorem updatesOf_other (h : ¬ u.Concerns id) :
    updatesOf id (.update u :: xs) = updatesOf id xs := by
  simp [updatesOf, Event.update?, h]

theorem mem_updatesOf : u ∈ updatesOf id xs ↔ .update u ∈ xs ∧ u.Concerns id := by
  simp only [updatesOf, List.mem_filter, List.mem_filterMap, decide_eq_true_eq]
  refine and_congr_left fun _ => ⟨fun ⟨ev, hev, hu⟩ => ?_, fun hu => ⟨_, hu, rfl⟩⟩
  cases ev with
  | trade t => cases hu
  | update v =>
      cases hu
      exact hev

theorem updatesOf_silent (h : ∀ ev ∈ xs, ¬ ev.Concerns id) : updatesOf id xs = [] := by
  refine List.eq_nil_iff_forall_not_mem.mpr fun u hu => ?_
  obtain ⟨hmem, hconcerns⟩ := mem_updatesOf.mp hu
  exact h _ hmem hconcerns

/-- The latest update of an identity is the last of `updatesOf` what has been delivered. -/
theorem lastUpdate?_eq (past : List Turn) (id : OrderId) :
    lastUpdate? past id = (updatesOf id (delivered past)).getLast? := by
  unfold lastUpdate? updatesOf
  rw [updateLog_eq, ← List.head?_filter, List.filter_reverse, List.head?_reverse]

end UpdatesOf

/-! ## Within a turn -/

/-- Of all the events one `Tells` of an order, and none names it after that. -/
structure Closes (id : OrderId) (u : OrderUpdate) (events : List Event) : Prop where
  updates_eq : updatesOf id events = [u]
  after : events.Pairwise fun a b => a.Tells id → ¬ b.Concerns id

/-- An order that is named among the events is told of once, and not named after that. -/
def ToldOnce (id : OrderId) (events : List Event) : Prop :=
  (∃ u, Closes id u events) ∨ ∀ ev ∈ events, ¬ ev.Concerns id

section ToldOnce

variable {id : OrderId} {u : OrderUpdate} {events : List Event} {o : Order} {trades : List Trade}

theorem toldOnce_nil (id : OrderId) : ToldOnce id [] := Or.inr fun ev hev => by cases hev

theorem closes_update (h : u.Concerns id) (hsilent : ∀ ev ∈ events, ¬ ev.Concerns id) :
    Closes id u (.update u :: events) := by
  refine ⟨?_, List.pairwise_cons.mpr ⟨fun b hb _ => hsilent b hb, ?_⟩⟩
  · rw [updatesOf_update h, updatesOf_silent hsilent]
  · exact List.pairwise_of_forall_mem_list fun a _ b hb _ => hsilent b hb

theorem Closes.trade (h : Closes id u events) (t : Trade) : Closes id u (.trade t :: events) := by
  refine ⟨h.updates_eq, List.pairwise_cons.mpr ⟨fun b hb htells => ?_, h.after⟩⟩
  obtain ⟨v, hv, -⟩ := htells
  cases hv

theorem Closes.other (h : Closes id u events) {v : OrderUpdate} (hv : ¬ v.Concerns id) :
    Closes id u (.update v :: events) := by
  refine ⟨?_, List.pairwise_cons.mpr ⟨fun b hb htells => ?_, h.after⟩⟩
  · rw [updatesOf_other hv]
    exact h.updates_eq
  · obtain ⟨w, hw, hconcerns⟩ := htells
    cases hw
    exact absurd hconcerns hv

theorem toldOnce_update (id : OrderId) (u : OrderUpdate) : ToldOnce id [.update u] := by
  by_cases h : u.Concerns id
  · exact Or.inl ⟨u, closes_update h fun ev hev => by cases hev⟩
  · refine Or.inr fun ev hev => ?_
    rw [List.mem_singleton.mp hev]
    exact h

/-- A `Tale` names its own order and the makers of its trades, and nobody else. -/
theorem Tale.not_concerns (h : Tale o trades events) (hne : o.id ≠ id)
    (hmakers : ∀ t ∈ trades, t.maker ≠ id) : ∀ ev ∈ events, ¬ ev.Concerns id := by
  induction h with
  | last hu =>
      intro ev hev
      rw [List.mem_singleton.mp hev]
      exact fun hconcerns => hne (hu.id_eq.symm.trans hconcerns.1)
  | @trade t u trades events htaker _ _ hid _ _ ih =>
      have hmaker := hmakers t List.mem_cons_self
      intro ev hev
      rcases List.mem_cons.mp hev with rfl | hev
      · rintro (heq | heq)
        · exact hmaker heq
        · exact hne (htaker.symm.trans heq)
      · rcases List.mem_cons.mp hev with rfl | hev
        · exact fun hconcerns => hmaker (hid.symm.trans hconcerns.1)
        · exact ih (fun t' ht' => hmakers t' (List.mem_cons_of_mem _ ht')) ev hev

theorem Tale.tells (h : Tale o trades events) : ∃ u, .update u ∈ events ∧ u.Shows o := by
  induction h with
  | @last u hu => exact ⟨u, List.mem_cons_self, hu⟩
  | trade _ _ _ _ _ _ ih =>
      obtain ⟨u, hmem, hu⟩ := ih
      exact ⟨u, List.mem_cons_of_mem _ (List.mem_cons_of_mem _ hmem), hu⟩

theorem Tale.toldOnce (h : Tale o trades events) (ho : o.status ≠ .rejected) (id : OrderId) :
    ToldOnce id events := by
  induction h with
  | last _ => exact toldOnce_update id _
  | @trade t u trades events htaker hmaker hothers hid hstatus htale ih =>
      by_cases heq : t.maker = id
      · have hconcerns : u.Concerns id := by
          refine ⟨hid.trans heq, ?_⟩
          rcases hstatus with hs | hs <;> rw [hs] <;> decide
        have hsilent := htale.not_concerns (fun hown => hmaker (heq.trans hown.symm))
          fun t' ht' => heq ▸ hothers t' ht'
        exact Or.inl ⟨u, (closes_update hconcerns hsilent).trade t⟩
      · have hother : ¬ u.Concerns id := fun hconcerns => heq (hid.symm.trans hconcerns.1)
        rcases ih with ⟨v, hv⟩ | hsilent
        · exact Or.inl ⟨v, (hv.other hother).trade t⟩
        · have hown : o.id ≠ id := by
            intro hown
            obtain ⟨v, hv, hshows⟩ := htale.tells
            exact hsilent _ hv ⟨hshows.id_eq.trans hown, hshows.status_eq ▸ ho⟩
          refine Or.inr fun ev hev => ?_
          rcases List.mem_cons.mp hev with rfl | hev
          · rintro (hmade | htook)
            · exact heq hmade
            · exact hown (htaker.symm.trans htook)
          · rcases List.mem_cons.mp hev with rfl | hev
            · exact hother
            · exact hsilent ev hev

end ToldOnce

/-- The identity of the order that a turn accepts. -/
def Turn.acceptedId? (t : Turn) : Option OrderId :=
  match t.call, t.answer with
  | .submit _ _, .submitted (.ok (.ok r)) => some r.order.id
  | _, _ => none

namespace Turn

variable {t : Turn}

theorem acceptedId?_eq_some {id : OrderId} : t.acceptedId? = some id ↔ ∃ world intent r,
    t.call = .submit world intent ∧ t.answer = .submitted (.ok (.ok r)) ∧ r.order.id = id := by
  unfold acceptedId?
  constructor
  · intro h
    split at h
    · next hcall hanswer => exact ⟨_, _, _, hcall, hanswer, Option.some.inj h⟩
    · cases h
  · rintro ⟨world, intent, r, hcall, hanswer, hid⟩
    rw [hcall, hanswer]
    exact congrArg some hid

theorem Tells.unrejected (h : t.Tells) (hnot : t.refuses = false) {o : Order} {trades : List Trade}
    (htale : Tale o trades t.events) : o.status ≠ .rejected := by
  obtain ⟨u, hu, hshows⟩ := htale.tells
  rw [← hshows.status_eq]
  cases h with
  | all htold => exact htold.unrejected u (List.mem_filterMap.mpr ⟨_, hu, rfl⟩)
  | refused hrefuses _ _ =>
      rw [hnot] at hrefuses
      cases hrefuses

/-- Every turn tells of each order that it names as `ToldOnce` says. -/
theorem Recounts.toldOnce (h : t.Recounts) (htells : t.Tells) (id : OrderId) :
    ToldOnce id t.events := by
  have hunrejected := @htells.unrejected
  obtain ⟨before, call, answer, events, after⟩ := t
  unfold Turn.refuses at hunrejected
  unfold Recounts at h
  dsimp only at h hunrejected ⊢
  split at h
  · exact h.2.toldOnce (hunrejected rfl h.2) id
  · cases h with
    | duplicate _ _ => exact toldOnce_nil id
    | invalid _ _ => exact toldOnce_update id _
  · obtain ⟨-, -, u, rfl, -⟩ := h
    exact toldOnce_update id u
  · obtain ⟨o, -, hamended⟩ := h
    cases hamended with
    | requeued _ _ htale => exact htale.toldOnce (hunrejected rfl htale) id
    | lessened _ _ _ _ => exact toldOnce_update id _
    | same _ _ => exact toldOnce_nil id
  · rw [h]
    exact toldOnce_nil id

/-- A turn that accepts an order tells of it. -/
theorem closes_of_accepted {id : OrderId} (h : t.acceptedId? = some id) (hrecounts : t.Recounts)
    (htells : t.Tells) : ∃ u, Closes id u t.events := by
  refine (hrecounts.toldOnce htells id).resolve_right fun hsilent => ?_
  obtain ⟨world, intent, r, hcall, hanswer, hid⟩ := acceptedId?_eq_some.mp h
  unfold Recounts at hrecounts
  rw [hcall, hanswer] at hrecounts
  have hnot : t.refuses = false := by
    unfold Turn.refuses
    rw [hcall, hanswer]
  have hunrejected := htells.unrejected hnot hrecounts.2
  obtain ⟨u, hu, hshows⟩ := hrecounts.2.tells
  exact hsilent _ hu ⟨hshows.id_eq.trans hid, hshows.status_eq ▸ hunrejected⟩

/-- What a turn says of how far orders have come. -/
def Ages (t : Turn) : Prop :=
  ∀ u ∈ t.updates, u.status ≠ .rejected → u.status.Leaves u.remaining ∧
    (t.acceptedId? = some u.orderId ∨ u.Continues t.before.Resting)

end Turn

theorem Engine.perform_ages {e : Engine} (hs : e.Sound) (hl : e.Lively) (call : Call)
    (hok : (e.perform call).answer.fault? = none) : (e.perform call).Ages := by
  have hanswered := answered hok
  intro u hu hunrejected
  rw [before_perform]
  cases call with
  | addInstrument config =>
      have hevents : (e.perform (.addInstrument config)).events = [] :=
        addInstrument_events e config
      unfold Turn.updates at hu
      rw [hevents] at hu
      cases hu
  | submit world intent =>
      obtain ⟨res, ha⟩ := hanswered
      cases res with
      | error why =>
          obtain ⟨ev, hev, hupdate⟩ := List.mem_filterMap.mp hu
          obtain ⟨v, rfl, hv⟩ := (submit_of_rejected hs ha).events ev hev
          cases hupdate
          exact absurd hv.status_eq hunrejected
      | ok r =>
          obtain ⟨hleaves, hown⟩ := submit_ages hs ha hu
          refine ⟨hleaves, hown.imp_left fun hshows => ?_⟩
          refine Turn.acceptedId?_eq_some.mpr ⟨world, intent, r, rfl, ?_, hshows.id_eq.symm⟩
          show Answer.submitted (e.submit world intent).answer = _
          rw [ha]
  | cancel world id =>
      obtain ⟨res, ha⟩ := hanswered
      exact (cancel_ages hs hl ha hu).imp_right Or.inr
  | modify world id request =>
      obtain ⟨res, ha⟩ := hanswered
      exact (modify_ages hs hl ha hu).imp_right Or.inr

/-! ## The course of an order -/

/-- The statuses that an order goes through, and the last of them: for some time it is new, for
some time it is filled in part, and then it has come to its end. -/
inductive Course : List OrderStatus → OrderStatus → Prop
  | new (a : Nat) : Course (List.replicate (a + 1) .new) .new
  | partly (a b : Nat) :
      Course (List.replicate a .new ++ List.replicate (b + 1) .partiallyFilled) .partiallyFilled
  | ended (a b : Nat) {s : OrderStatus} : s = .filled ∨ s = .cancelled →
      Course (List.replicate a .new ++ List.replicate b .partiallyFilled ++ [s]) s

namespace Course

variable {ss : List OrderStatus} {s s' : OrderStatus}

theorem first (h : s ≠ .rejected) : Course [s] s := by
  cases s with
  | new => exact .new 0
  | partiallyFilled => exact .partly 0 0
  | filled => exact .ended 0 0 (Or.inl rfl)
  | cancelled => exact .ended 0 0 (Or.inr rfl)
  | rejected => exact absurd rfl h

/-- A live order goes on in its `Course`, but never back. -/
theorem next (h : Course ss s) (hlive : s.isTerminal = false) (hs' : s' ≠ .rejected)
    (hnew : s' = .new → s = .new) : Course (ss ++ [s']) s' := by
  cases h with
  | new a =>
      cases s' with
      | new =>
          rw [← List.replicate_succ']
          exact .new (a + 1)
      | partiallyFilled => exact .partly (a + 1) 0
      | filled =>
          rw [← List.append_nil (List.replicate (a + 1) _)]
          exact .ended (a + 1) 0 (Or.inl rfl)
      | cancelled =>
          rw [← List.append_nil (List.replicate (a + 1) _)]
          exact .ended (a + 1) 0 (Or.inr rfl)
      | rejected => exact absurd rfl hs'
  | partly a b =>
      cases s' with
      | new => cases hnew rfl
      | partiallyFilled =>
          rw [List.append_assoc, ← List.replicate_succ']
          exact .partly a (b + 1)
      | filled => exact .ended a (b + 1) (Or.inl rfl)
      | cancelled => exact .ended a (b + 1) (Or.inr rfl)
      | rejected => exact absurd rfl hs'
  | ended a b hs => rcases hs with rfl | rfl <;> cases hlive

theorem getLast? (h : Course ss s) : ss.getLast? = some s := by
  cases h with
  | new a => simp [List.getLast?_replicate]
  | partly a b => simp [List.getLast?_append, List.getLast?_replicate]
  | ended a b _ => simp

/-- Only the last status can be a terminal one. -/
theorem terminal_last (h : Course ss s) (hs' : s' ∈ ss) (ht : s'.isTerminal = true) :
    s.isTerminal = true := by
  cases h with
  | new a =>
      rw [(List.mem_replicate.mp hs').2] at ht
      exact ht
  | partly a b =>
      rcases List.mem_append.mp hs' with hs' | hs'
      · rw [(List.mem_replicate.mp hs').2] at ht
        cases ht
      · rw [(List.mem_replicate.mp hs').2] at ht
        exact ht
  | ended a b hs => rcases hs with rfl | rfl <;> rfl

end Course

/-- What has been told of an order by some events. -/
structure Chronicle (id : OrderId) (events : List Event) (s : OrderStatus) : Prop where
  course : Course ((updatesOf id events).map OrderUpdate.status) s
  leaves : ∀ u ∈ updatesOf id events, u.status.Leaves u.remaining
  finished : events.Pairwise fun a b => a.Ends id → ¬ b.Concerns id

section Chronicle

variable {id : OrderId} {events more : List Event} {s : OrderStatus} {u : OrderUpdate}

theorem Event.Ends.tells {ev : Event} (h : ev.Ends id) : ev.Tells id := by
  obtain ⟨u, hev, hconcerns, -⟩ := h
  exact ⟨u, hev, hconcerns⟩

theorem Closes.finished (h : Closes id u events) :
    events.Pairwise fun a b => a.Ends id → ¬ b.Concerns id :=
  h.after.imp fun hafter hends => hafter hends.tells

theorem Closes.concerns (h : Closes id u events) : .update u ∈ events ∧ u.Concerns id :=
  mem_updatesOf.mp (by rw [h.updates_eq]; exact List.mem_cons_self)

theorem Closes.chronicle (h : Closes id u events) (hleaves : u.status.Leaves u.remaining) :
    Chronicle id events u.status := by
  refine ⟨?_, fun v hv => ?_, h.finished⟩
  · rw [h.updates_eq]
    exact .first h.concerns.2.2
  · rw [h.updates_eq] at hv
    rw [List.mem_singleton.mp hv]
    exact hleaves

/-- Events that do not name the order leave its `Chronicle` as it is. -/
theorem Chronicle.silent (h : Chronicle id events s) (hsilent : ∀ ev ∈ more, ¬ ev.Concerns id) :
    Chronicle id (events ++ more) s := by
  refine ⟨?_, ?_, List.pairwise_append.mpr ⟨h.finished, ?_, fun a _ b hb _ => hsilent b hb⟩⟩
  · rw [updatesOf_append, updatesOf_silent hsilent, List.append_nil]
    exact h.course
  · rw [updatesOf_append, updatesOf_silent hsilent, List.append_nil]
    exact h.leaves
  · exact List.pairwise_of_forall_mem_list fun a _ b hb _ => hsilent b hb

/-- Events that tell once of a live order carry its `Chronicle` on. -/
theorem Chronicle.next (h : Chronicle id events s) (hlive : s.isTerminal = false)
    (hclose : Closes id u more) (hleaves : u.status.Leaves u.remaining)
    (hnew : u.status = .new → s = .new) : Chronicle id (events ++ more) u.status := by
  refine ⟨?_, fun v hv => ?_, List.pairwise_append.mpr ⟨h.finished, hclose.finished, ?_⟩⟩
  · rw [updatesOf_append, List.map_append, hclose.updates_eq]
    exact h.course.next hlive hclose.concerns.2.2 hnew
  · rw [updatesOf_append, hclose.updates_eq] at hv
    rcases List.mem_append.mp hv with hv | hv
    · exact h.leaves v hv
    · rw [List.mem_singleton.mp hv]
      exact hleaves
  · -- The order was live, so nothing has told of its end.
    intro a ha b _ hends
    obtain ⟨v, rfl, hconcerns, hterminal⟩ := hends
    have hmem : v.status ∈ (updatesOf id events).map OrderUpdate.status :=
      List.mem_map_of_mem (mem_updatesOf.mpr ⟨ha, hconcerns⟩)
    rw [h.course.terminal_last hmem hterminal] at hlive
    cases hlive

end Chronicle

/-! ## Over a run -/

section Run

variable {past later earlier : List Turn} {t : Turn} {e : Engine} {id : OrderId} {s : OrderStatus}

/-- The status that a `Chronicle` has come to is that of the latest update. -/
theorem Chronicle.last (h : Chronicle id (delivered (later ++ [t])) s)
    (earlier : List Turn) :
    ∃ u, lastUpdate? (later ++ t :: earlier) id = some u ∧ u.status = s := by
  have hlast := h.course.getLast?
  rw [List.getLast?_map] at hlast
  obtain ⟨u, hu, hstatus⟩ := Option.map_eq_some_iff.mp hlast
  refine ⟨u, ?_, hstatus⟩
  rw [lastUpdate?_eq, List.append_cons, delivered_append, updatesOf_append,
    List.getLast?_append, hu]
  rfl

/-- The turns of a `Faultless` run tell what they should. -/
theorem History.turn_told {before : Engine} {call : Call} (h : Run past before)
    (hok : Faultless (before.perform call :: past)) :
    (before.perform call).Recounts ∧ (before.perform call).Tells ∧
      (before.perform call).Ages := by
  have hpast : Faultless past := fun t ht => hok t (List.mem_cons_of_mem _ ht)
  have hturn := hok _ List.mem_cons_self
  obtain ⟨hs, hl, -⟩ := h.orderly hpast
  exact ⟨Engine.perform_recounts hs h.listed call hturn, Engine.perform_tells hs hl call hturn,
    Engine.perform_ages hs hl call hturn⟩

/-- Every turn after the one that has accepted an order carries its `Chronicle` on. -/
theorem History.chronicle (h : Run past e) (hok : Faultless past)
    (hpast : past = later ++ t :: earlier)
    (haccepted : t.acceptedId? = some id) (honce : ∀ t' ∈ later, t'.acceptedId? ≠ some id) :
    ∃ s, Chronicle id (delivered (later ++ [t])) s := by
  induction later generalizing past e with
  | nil =>
      rw [List.nil_append] at hpast
      subst hpast
      obtain ⟨before, call, hrun, ht⟩ := h.of_suffix (List.suffix_refl _)
      subst ht
      obtain ⟨hrecounts, htells, hages⟩ := hrun.turn_told hok
      obtain ⟨u, hu⟩ := Turn.closes_of_accepted haccepted hrecounts htells
      obtain ⟨hmem, hconcerns⟩ := hu.concerns
      have hleaves := (hages u (List.mem_filterMap.mpr ⟨_, hmem, rfl⟩) hconcerns.2).1
      have hevents : delivered ([] ++ [before.perform call]) = (before.perform call).events := by
        simp
      rw [hevents]
      exact ⟨_, hu.chronicle hleaves⟩
  | cons t' later ih =>
      rw [List.cons_append] at hpast
      subst hpast
      obtain ⟨before, call, hrun, ht⟩ := h.of_suffix (List.suffix_refl _)
      subst ht
      have hok' : Faultless (later ++ t :: earlier) :=
        fun x hx => hok x (List.mem_cons_of_mem _ hx)
      obtain ⟨hs, hl, -⟩ := hrun.orderly hok'
      obtain ⟨hrecounts, htells, hages⟩ := hrun.turn_told hok
      obtain ⟨s, hchronicle⟩ := ih hrun hok' rfl fun x hx => honce x (List.mem_cons_of_mem _ hx)
      rw [List.cons_append, delivered_cons]
      rcases hrecounts.toldOnce htells id with ⟨u, hu⟩ | hsilent
      · obtain ⟨hmem, hconcerns⟩ := hu.concerns
        obtain ⟨hleaves, hnew | ⟨x, ⟨i, hx⟩, hxid, hnew⟩⟩ :=
          hages u (List.mem_filterMap.mpr ⟨_, hmem, rfl⟩) hconcerns.2
        · rw [hconcerns.1] at hnew
          exact absurd hnew (honce _ List.mem_cons_self)
        · -- The order that rests is as it was last told to be.
          rw [before_perform] at hx
          obtain ⟨v, hv, hshows⟩ :=
            ((hrun.borne hok' id).logged hs).shown i x hx (hxid.trans hconcerns.1)
          obtain ⟨w, hw, hstatus⟩ := hchronicle.last earlier
          rw [hv] at hw
          cases hw
          have hlive := hl.live hx
          rw [← hshows.status_eq, hstatus] at hlive hnew
          refine ⟨_, hchronicle.next ?_ hu hleaves hnew⟩
          rw [OrderStatus.isTerminal_eq_not_isLive, hlive]
          rfl
      · exact ⟨s, hchronicle.silent hsilent⟩

/-- The life of an order. The updates of an order that has been accepted, up to the next order under
its identity, tell that it is new, then that it is filled in part, and once, and last of all, that
it is filled or cancelled. That is told just when it rests no more; a filled order has nothing left
and any other has something; and no event names an order that has been told to be over. -/
theorem order_lifetime (h : Run past e) (hok : Faultless past)
    (hpast : past = later ++ t :: earlier) (haccepted : t.acceptedId? = some id)
    (honce : ∀ t' ∈ later, t'.acceptedId? ≠ some id) :
    ∃ s, Chronicle id (delivered (later ++ [t])) s ∧
      (s.isTerminal = true ↔ e.order? id = none) := by
  obtain ⟨s, hchronicle⟩ := h.chronicle hok hpast haccepted honce
  refine ⟨s, hchronicle, ?_⟩
  obtain ⟨hs, -, -⟩ := h.orderly hok
  have hrests := ((h.borne hok id).logged hs).rests_iff
  obtain ⟨u, hu, hstatus⟩ := hchronicle.last earlier
  rw [hpast, hu] at hrests
  constructor
  · intro hterminal
    cases ho : e.order? id with
    | none => rfl
    | some o =>
        obtain ⟨⟨i, hrest⟩, hid⟩ := (Engine.order?_iff hs).mp ho
        obtain ⟨v, hv, hlive⟩ := hrests.mp ⟨i, o, hrest, hid⟩
        cases hv
        rw [hstatus, hterminal] at hlive
        cases hlive
  · intro hnone
    cases hterminal : s.isTerminal with
    | true => rfl
    | false =>
        obtain ⟨i, o, hrest, hid⟩ := hrests.mpr ⟨u, rfl, hstatus ▸ hterminal⟩
        rw [(Engine.order?_iff hs).mpr ⟨⟨i, hrest⟩, hid⟩] at hnone
        cases hnone

end Run

/-- Three are offered at 1, the first of all in that instrument. -/
def opening : Turn :=
  ((Engine.empty .priceTime).perform (.addInstrument (.plain "X"))).after.perform
    (.submit (.handing 1) (.limit "X" .sell 1 (.scaled 3 0)))

/-- One of them is bought, the last of them goes up to 2, an offer of nothing comes under the same
identity, and the last one is bought and then cancelled in vain. -/
def career : List Call :=
  [.submit (.handing 2) (.limit "X" .buy 1 1),
    .modify (.handing 0) ⟨.ofNat 1⟩ ⟨some (.scaled 2 0), 1⟩,
    .submit (.handing 1) (.limit "X" .sell 1 0),
    .submit (.handing 3) (.market "X" .buy 1),
    .cancel (.handing 0) ⟨.ofNat 1⟩]

theorem order_lifetime_career :
    (∃ s, Chronicle ⟨⟨1, by decide⟩⟩
        (delivered ((opening.after.follow [] career).1 ++ [opening])) s ∧
      (s.isTerminal = true ↔ (opening.after.follow [] career).2.order? ⟨⟨1, by decide⟩⟩ = none)) ∧
      (updatesOf ⟨⟨1, by decide⟩⟩
          (delivered ((opening.after.follow [] career).1 ++ [opening]))).map
          (fun u => (u.status, u.remaining)) =
        [(.new, .whole 3 (by decide)), (.partiallyFilled, .whole 2 (by decide)),
          (.partiallyFilled, 1), (.filled, 0)] := by
  have hrun : Run _ _ := ((History.start.turn (.addInstrument (.plain "X"))).turn
    (.submit (.handing 1) (.limit "X" .sell 1 (.scaled 3 0)))).follow career
  refine ⟨order_lifetime hrun (by decide +kernel) (Engine.follow_past _ _ _) (by decide +kernel)
    (by decide +kernel), by decide +kernel⟩

end Bourse

/-
What loops count and register.

A loop counts the pendings that it forces on its own account, and keeps a list of those that were
registered with it.  Apart from a new pending, nothing changes the lists; and only a loop that is
about to force the pending it has chosen counts.  It asks for the rank of the pending then, and
starts the resolver later, if nothing has resolved the pending in between.

* **`Store.Registered`** — the list of a loop holds its own pendings, in the order of their numbers;
* **`Store.Books`** — changes that count nothing and keep the lists right;
* **`Machine.charges`** — how many of the pendings that a loop has counted it has still to force;
* **`Machine.step_books`** — every step is such a change, or a loop counts or forces a pending;
* **`Machine.Reachable.registered`** — the lists are right along every run.
-/
import ValueInference.Proofs.Resolvers

namespace ValueInference

namespace Store

variable {s t u : Store} {l l' : LoopId} {p : PendingId}

/-! ### Addresses of pendings -/

/-- The loop that each pending was registered with, and its number there. -/
def addresses (s : Store) : List (LoopId × Nat) := s.pendings.toList.map fun c => (c.loop, c.number)

/-- The pendings of a loop, by the entries of the pendings. -/
def pendingsOf (s : Store) (l : LoopId) : List PendingId :=
  (List.range s.addresses.length).filter fun p => s.addresses[p]?.map Prod.fst = some l

/-- The list of every loop holds the pendings that were registered with it, in the order in which
they came, which is that of their numbers. -/
def Registered (s : Store) : Prop :=
  ∀ l, (s.loop l).pendings = s.pendingsOf l ∧
    (s.pendingsOf l).map s.pendingNumber = List.range (s.pendingsOf l).length

theorem length_addresses (s : Store) : s.addresses.length = s.pendings.size := by
  rw [addresses, List.length_map, Array.length_toList]

theorem getElem?_addresses (s : Store) (p : PendingId) :
    s.addresses[p]? = s.pendings[p]?.map fun c => (c.loop, c.number) := by
  rw [addresses, List.getElem?_map, Array.getElem?_toList]

theorem pendingNumber_eq (s : Store) (p : PendingId) :
    s.pendingNumber p = (s.addresses[p]?.map Prod.snd).getD 0 := by
  rw [getElem?_addresses, Option.map_map, pendingNumber]
  rfl

theorem addresses_modifyPending {f : Pending → Pending}
    (hloop : ∀ c, (f c).loop = c.loop) (hnumber : ∀ c, (f c).number = c.number) :
    (s.modifyPending p f).addresses = s.addresses := by
  refine List.ext_getElem? fun q => ?_
  rw [getElem?_addresses, getElem?_addresses]
  by_cases hpq : p = q
  · subst hpq
    rw [pending_modify_self, Option.map_map]
    congr 1
    funext c
    exact Prod.ext (hloop c) (hnumber c)
  · rw [pending_of_ne hpq]

/-! ### Changes that count nothing -/

/-- No loop goes away, the counts stay, and the lists stay right. -/
structure Books (s t : Store) : Prop where
  loops : s.loops.size ≤ t.loops.size
  forced : ∀ l, (t.loop l).forced = (s.loop l).forced
  registered : s.Registered → t.Registered

namespace Books

theorem refl (s : Store) : s.Books s := ⟨Nat.le_refl _, fun _ => rfl, id⟩

theorem trans (h : s.Books t) (h' : t.Books u) : s.Books u :=
  ⟨Nat.le_trans h.loops h'.loops, fun l => (h'.forced l).trans (h.forced l),
    h'.registered ∘ h.registered⟩

theorem registered_of_same (haddresses : t.addresses = s.addresses)
    (hlists : ∀ l, (t.loop l).pendings = (s.loop l).pendings) (hs : s.Registered) :
    t.Registered := by
  have hnumber : t.pendingNumber = s.pendingNumber := by
    funext p
    rw [pendingNumber_eq, pendingNumber_eq, haddresses]
  intro l
  have hown : t.pendingsOf l = s.pendingsOf l := by rw [pendingsOf, haddresses, pendingsOf]
  rw [hlists, hown, hnumber]
  exact hs l

/-- No pending is registered. -/
theorem of_same (haddresses : t.addresses = s.addresses) (hsize : s.loops.size ≤ t.loops.size)
    (hloops : ∀ l, (t.loop l).forced = (s.loop l).forced ∧
      (t.loop l).pendings = (s.loop l).pendings) : s.Books t :=
  ⟨hsize, fun l => (hloops l).1, registered_of_same haddresses fun l => (hloops l).2⟩

theorem of_parts (hpendings : t.pendings = s.pendings) (hloops : t.loops = s.loops) :
    s.Books t := by
  refine of_same (by rw [addresses, hpendings, addresses]) (Nat.le_of_eq (by rw [hloops]))
    fun l => ?_
  have hloop : t.loop l = s.loop l := by rw [loop, hloops, loop]
  exact ⟨by rw [hloop], by rw [hloop]⟩

theorem modifyPending (s : Store) (p : PendingId) {f : Pending → Pending}
    (hloop : ∀ c, (f c).loop = c.loop) (hnumber : ∀ c, (f c).number = c.number) :
    s.Books (s.modifyPending p f) :=
  of_same (addresses_modifyPending hloop hnumber) (Nat.le_refl _) fun _ => ⟨rfl, rfl⟩

theorem modifyLoop (s : Store) (l : LoopId) {f : LoopState → LoopState}
    (hforced : ∀ loop, (f loop).forced = loop.forced)
    (hpendings : ∀ loop, (f loop).pendings = loop.pendings) : s.Books (s.modifyLoop l f) := by
  refine of_same rfl (Nat.le_of_eq Array.size_modify.symm) fun l' => ?_
  rw [loop_modifyLoop]
  split
  · exact ⟨hforced _, hpendings _⟩
  · exact ⟨rfl, rfl⟩

theorem record (s : Store) (d : Diagnostic) : s.Books (s.record d) := of_parts rfl rfl

theorem wakes (ws : List Waiter) : ∀ s : Store, s.Books (ws.foldl wake s) := by
  induction ws with
  | nil => exact .refl
  | cons w ws ih =>
    intro s
    refine (modifyLoop s w.loop (fun loop => ?_) fun loop => ?_).trans (ih _)
    all_goals
      rw [LoopState.schedule]
      split <;> rfl

theorem close (s : Store) (p : PendingId) (status : PendingStatus) : s.Books (s.close p status) := by
  have hcell : s.Books (s.modifyPending p fun c => { c with status, resolver := none, waiters := [] }) :=
    modifyPending s p (fun _ => rfl) fun _ => rfl
  exact hcell.trans (wakes _ _)

theorem setResult (s : Store) (p : PendingId) (slot : Slot) : s.Books (s.setResult p slot).2 := by
  rw [Store.setResult]
  repeat' split
  · exact .refl s
  · exact .refl s
  · exact .refl s
  · exact close s p _

theorem register (s : Store) (w : Waiter) (p : PendingId) : s.Books (s.register w p) := by
  refine modifyPending s p (fun c => ?_) fun c => ?_
  all_goals split <;> rfl

theorem spawn (s : Store) (l : LoopId) (body : TaskBody) : s.Books (s.spawn l body).2 := by
  rw [Store.spawn]
  split
  · exact .refl s
  split
  · exact .refl s
  refine modifyLoop s l (fun loop => ?_) fun loop => ?_
  all_goals
    rw [LoopState.schedule]
    split <;> rfl

theorem openLoop (s : Store) (config : Config) : s.Books (s.openLoop config).2 := by
  refine of_same rfl (Nat.le_of_lt (by rw [Store.openLoop, Array.size_push]; exact Nat.lt_succ_self _))
    fun l => ?_
  show ((s.loops.push _)[l]?.getD _).forced = _ ∧ ((s.loops.push _)[l]?.getD _).pendings = _
  rcases Nat.lt_trichotomy l s.loops.size with hlt | rfl | hgt
  · rw [Array.getElem?_push_lt hlt, loop, Array.getElem?_eq_getElem hlt]
    exact ⟨rfl, rfl⟩
  · rw [Array.getElem?_push_size, loop_of_absent (Nat.le_refl _)]
    exact ⟨rfl, rfl⟩
  · rw [Array.getElem?_eq_none (by rw [Array.size_push]; exact hgt),
      loop_of_absent (Nat.le_of_lt hgt)]
    exact ⟨rfl, rfl⟩

/-- A new pending comes last in the list of its loop. -/
theorem openPending (s : Store) (l : LoopId) (resolver : Option Resolver) (priority : Priority) :
    s.Books (s.openPending l resolver priority).2 := by
  rw [Store.openPending]
  split
  · exact .refl s
  next loop hloop =>
  split
  · exact .refl s
  have hl : l < s.loops.size := (Array.getElem?_eq_some_iff.mp hloop).1
  have hcurrent : s.loop l = loop := by rw [Store.loop, hloop]; rfl
  -- the number of the cell is the place of its entry in the list of the loop
  let cell : Pending :=
    { loop := l, number := loop.pendings.length, resolver := resolver, priority := priority }
  let t : Store := { s with
    pendings := s.pendings.push cell
    loops := s.loops.modify l fun loop => { loop with pendings := loop.pendings ++ [s.pendings.size] } }
  show s.Books t
  have hloops : ∀ l', t.loop l' = if l = l' ∧ l < s.loops.size then
      { s.loop l' with pendings := (s.loop l').pendings ++ [s.pendings.size] } else s.loop l' :=
    fun l' => s.loop_modifyLoop l l' _
  have haddresses : t.addresses = s.addresses ++ [(l, (s.loop l).pendings.length)] := by
    show (s.pendings.push cell).toList.map _ = _
    rw [Array.toList_push, List.map_append, hcurrent]
    rfl
  have hold : ∀ p < s.addresses.length, t.addresses[p]? = s.addresses[p]? := fun p hp => by
    rw [haddresses, List.getElem?_append_left hp]
  have hnew : t.addresses[s.addresses.length]? = some (l, (s.loop l).pendings.length) := by
    rw [haddresses, List.getElem?_concat_length]
  -- only the list of `l` grows, and at its end
  have hlist : ∀ l', t.pendingsOf l' =
      s.pendingsOf l' ++ if l = l' then [s.addresses.length] else [] := by
    intro l'
    have hlength : t.addresses.length = s.addresses.length + 1 := by
      rw [haddresses, List.length_append]
      rfl
    rw [pendingsOf, hlength, List.range_succ, List.filter_append, pendingsOf]
    congr 1
    · exact List.filter_congr fun p hp => by rw [hold p (List.mem_range.mp hp)]
    · rw [List.filter_singleton, hnew]
      by_cases h : l = l' <;> simp [h]
  constructor
  · exact Nat.le_of_eq Array.size_modify.symm
  · intro l'
    rw [hloops]
    split <;> rfl
  · intro hs l'
    obtain ⟨hown, hnumbers⟩ := hs l'
    have hkept : (s.pendingsOf l').map t.pendingNumber =
        (s.pendingsOf l').map s.pendingNumber := by
      refine List.map_congr_left fun p hp => ?_
      have hlt := List.mem_range.mp (List.mem_of_mem_filter hp)
      rw [pendingNumber_eq, hold p hlt, pendingNumber_eq]
    rw [hlist, hloops]
    by_cases h : l = l'
    · subst h
      rw [if_pos ⟨rfl, hl⟩, if_pos rfl, List.map_append, hkept, hnumbers, List.length_append,
        List.length_singleton, List.range_succ, hown, length_addresses]
      refine ⟨rfl, congrArg (List.range (s.pendingsOf l).length ++ ·) ?_⟩
      rw [List.map_singleton, pendingNumber_eq, ← length_addresses, hnew, hown]
      rfl
    · rw [if_neg fun hand => h hand.1, if_neg h, List.append_nil, hkept]
      exact ⟨hown, hnumbers⟩

theorem change (s : Store) (c : Change) : s.Books (c.apply s) := by
  cases c with
  | build k =>
    show s.Books (s.build k).2
    obtain h | ⟨contents, node, h⟩ := s.build_eq k
    all_goals
      rw [h]
      exact .of_parts rfl rfl
  | complete n k =>
    show s.Books (s.complete n k).2
    rw [complete]
    repeat' split
    all_goals exact .of_parts rfl rfl
  | openLoop config => exact .openLoop s config
  | openPending l resolver priority => exact .openPending s l resolver priority
  | spawn l d => exact .spawn s l (.merge d)
  | setResult p slot => exact .setResult s p slot
  | _ => exact .of_parts rfl rfl

theorem evolves (h : Evolves s t) : s.Books t := by
  induction h with
  | refl => exact .refl s
  | step c _ ih => exact ih.trans (.change _ c)

theorem beginResolving {r : Resolver} (h : s.beginResolving p = (some r, t)) : s.Books t := by
  obtain ⟨-, rfl⟩ := beginResolving_eq h
  exact modifyPending s p (fun _ => rfl) fun _ => rfl

theorem dropTask (s : Store) (l : LoopId) (n : TaskId) : s.Books (s.dropTask l n) :=
  modifyLoop s l (fun _ => rfl) fun _ => rfl

theorem putTask (s : Store) (l : LoopId) (n : TaskId) (body : TaskBody) :
    s.Books (s.putTask l n body) :=
  modifyLoop s l (fun _ => rfl) fun _ => rfl

end Books

/-- The store once a loop has counted a pending that it forces. -/
def counted (s : Store) (l : LoopId) : Store :=
  s.modifyLoop l fun loop => { loop with forced := loop.forced + 1 }

theorem loop_counted (s : Store) (l l' : LoopId) :
    (s.counted l).loop l' = if l = l' ∧ l < s.loops.size then
      { s.loop l' with forced := (s.loop l').forced + 1 } else s.loop l' :=
  s.loop_modifyLoop l l' _

theorem Registered.counted (h : s.Registered) (l : LoopId) : (s.counted l).Registered := by
  refine Books.registered_of_same (s := s) rfl (fun l' => ?_) h
  rw [loop_counted]
  split <;> rfl

/-- The store once the resolver of a pending was taken. -/
def taken (s : Store) (p : PendingId) : Store :=
  s.modifyPending p fun c => { c with resolver := none, status := .resolving }

theorem Books.taken (s : Store) (p : PendingId) : s.Books (s.taken p) :=
  modifyPending s p (fun _ => rfl) fun _ => rfl

theorem beginResolving_some {r : Resolver} (h : s.resolver? p = some r) :
    s.beginResolving p = (some r, s.taken p) := by
  rw [beginResolving, ← resolver?, h]
  rfl

end Store

/-- The loop on whose own account a frame forces a pending. -/
def Frame.forcingLoop? {σ : Type} : Frame σ → Option LoopId
  | .driveForcing l _ | .finishForcing l => some l
  | _ => none

/-- The loop that compares the ranks of pendings. -/
def Frame.choosingLoop? {σ : Type} : Frame σ → Option LoopId
  | .choosing l _ _ _ _ => some l
  | _ => none

/-- The loop that has counted a pending which it has still to force. -/
def Frame.chargingLoop? {σ : Type} : Frame σ → Option LoopId
  | .charging l _ _ => some l
  | _ => none

/-- A frame of no resolver, and of no loop that is about to force a pending. -/
def Frame.Free {σ : Type} (f : Frame σ) : Prop :=
  f.resolving? = none ∧ f.choosingLoop? = none ∧ f.chargingLoop? = none

theorem Aim.forcingLoop?_frame {σ : Type} (aim : Aim) (l : LoopId) :
    (aim.frame l : Frame σ).forcingLoop? = some l := by
  cases aim <;> rfl

theorem Aim.free_frame {σ : Type} (aim : Aim) (l : LoopId) : (aim.frame l : Frame σ).Free := by
  cases aim <;> exact ⟨rfl, rfl, rfl⟩

namespace Machine

variable {σ : Type} {m m' m₁ : Machine σ} {l : LoopId} {p : PendingId}

/-- The loop that forces, on its own account, the pending whose resolver is on top of the stack. -/
def forcedBy? (m : Machine σ) : Option LoopId :=
  match m.stack with
  | .resolving _ :: after :: _ => after.forcingLoop?
  | _ => none

/-- How many pendings a loop has counted that it has still to force. -/
def charges (m : Machine σ) (l : LoopId) : Nat := m.stack.countP fun f => f.chargingLoop? = some l

/-- Only loops that exist choose among their pendings. -/
def Housed (m : Machine σ) : Prop :=
  ∀ f ∈ m.stack, ∀ l, f.choosingLoop? = some l → l < m.store.loops.size

/-! ### Steps that count nothing -/

/-- Nothing is counted, and no resolver starts. -/
structure Settled (m m' : Machine σ) : Prop where
  books : m.store.Books m'.store
  resolvers : m'.resolvers.length ≤ m.resolvers.length
  charges : ∀ l, m'.charges l ≤ m.charges l
  housed : m.Housed → m'.Housed

namespace Settled

theorem trans {m₂ : Machine σ} (h : m.Settled m₁) (h' : m₁.Settled m₂) : m.Settled m₂ :=
  ⟨h.books.trans h'.books, Nat.le_trans h'.resolvers h.resolvers,
    fun l => Nat.le_trans (h'.charges l) (h.charges l), h'.housed ∘ h.housed⟩

theorem changed (hbooks : m.store.Books m'.store) (hstack : m'.stack = m.stack) : m.Settled m' where
  books := hbooks
  resolvers := Nat.le_of_eq (by rw [Machine.resolvers, hstack, Machine.resolvers])
  charges l := Nat.le_of_eq (by rw [Machine.charges, hstack, Machine.charges])
  housed hm f hf l hl := Nat.lt_of_lt_of_le (hm f (hstack ▸ hf) l hl) hbooks.loops

theorem go (hstore : m'.store = m.store) (hstack : m'.stack = m.stack) : m.Settled m' :=
  changed (hstore ▸ .refl _) hstack

theorem answer (m : Machine σ) (r : Outcome) : m.Settled (m.answer r) := go rfl rfl

theorem exec (m : Machine σ) (code : Program σ) : m.Settled (m.exec code) := go rfl rfl

theorem push (m : Machine σ) (f : Frame σ) (hf : f.Free) : m.Settled (m.push f) where
  books := .refl _
  resolvers := by
    rw [Machine.resolvers, Machine.push, List.filterMap_cons_none hf.1]
    exact Nat.le_refl _
  charges l := by
    rw [Machine.charges, Machine.push, List.countP_cons_of_neg (by simp [hf.2.2])]
    exact Nat.le_refl _
  housed hm g hg l hl := by
    rcases List.mem_cons.mp hg with rfl | hg
    · cases hf.2.1.symm.trans hl
    · exact hm g hg l hl

/-- Frames are taken off the stack. -/
theorem drop {rest : List (Frame σ)} (h : rest <:+ m.stack) : m.Settled { m with stack := rest } where
  books := .refl _
  resolvers := (h.sublist.filterMap _).length_le
  charges _ := h.sublist.countP_le
  housed hm f hf l hl := hm f (h.subset hf) l hl

theorem pop {f : Frame σ} {rest : List (Frame σ)} (h : m.stack = f :: rest) :
    m.Settled { m with stack := rest } := drop (h ▸ List.suffix_cons f rest)

theorem record (m : Machine σ) (d : Diagnostic) :
    m.Settled { m with store := m.store.record d } :=
  changed (.record _ d) rfl

theorem deadlocked (m : Machine σ) (l : LoopId) : m.Settled (m.deadlocked l) :=
  (record m _).trans (answer _ _)

theorem startDrive (m : Machine σ) (l : LoopId) (goal : Goal) : m.Settled (m.startDrive l goal) :=
  (push m (.drive l goal) ⟨rfl, rfl, rfl⟩).trans (go rfl rfl)

theorem forceDone (m : Machine σ) (l : LoopId) (p : PendingId) : m.Settled (m.forceDone l p) := by
  rw [Machine.forceDone]
  split
  · exact answer m _
  · exact deadlocked m l

theorem taskDone (m : Machine σ) (l : LoopId) (t : TaskId) (body : TaskBody) (r : Outcome) :
    m.Settled (m.taskDone l t body r) := by
  refine changed (.modifyLoop m.store l (fun loop => ?_) fun loop => ?_) rfl
  all_goals split <;> rfl

theorem takeOutcome (m : Machine σ) (l : LoopId) (t : TaskId) :
    m.Settled (m.takeOutcome l t) := by
  rw [Machine.takeOutcome]
  split
  · exact deadlocked m l
  · exact changed (.modifyLoop m.store l (fun _ => rfl) fun _ => rfl) rfl

theorem resolved (m : Machine σ) (p : PendingId) (r : Outcome) : m.Settled (m.resolved p r) := by
  refine changed ?_ (resolved_stack m p r)
  cases r with
  | error e => exact .close m.store p (.failed e)
  | ok slot =>
    obtain h | h := m.resolved_ok p slot
    · exact h ▸ .refl _
    · exact h ▸ .setResult m.store p slot

/-- Code that waits is put aside, or its task goes back to its table. -/
theorem pause (m : Machine σ) (code : Program σ) {stack : List (Frame σ)} (h : stack <:+ m.stack) :
    m.Settled (m.pause code stack) := by
  have hsuffix := (rejoin_suffix stack code).trans h
  rw [Machine.pause]
  split
  · next hrejoin =>
    rw [hrejoin] at hsuffix
    have hrest := (List.suffix_cons _ _).trans hsuffix
    exact ((drop hrest).trans (push _ (.right _ _ _) ⟨rfl, rfl, rfl⟩)).trans (exec _ _)
  · next l t body _ hrejoin =>
    rw [hrejoin] at hsuffix
    refine (drop ((List.suffix_cons _ _).trans hsuffix)).trans (changed ?_ ?_)
    · cases body <;> exact .putTask _ l t _
    · cases body <;> rfl
  · next hrejoin =>
    rw [hrejoin] at hsuffix
    exact (drop hsuffix).trans (answer _ _)

theorem await (m : Machine σ) (w : Wait) (next : Outcome → Program σ) :
    m.Settled (m.await w next) := by
  rw [Machine.await]
  split
  · exact exec m _
  next p _ =>
  split
  · next t _ =>
    have hregister : m.Settled { m with store := m.store.register t p } :=
      changed (.register m.store t p) rfl
    exact hregister.trans (pause _ _ List.suffix_rfl)
  · exact answer m _

theorem leftDone (m : Machine σ) (r : Outcome) (right : Program σ) (rule : Fork)
    (next : rule.Answer → Program σ) : m.Settled (m.leftDone r right rule next) := by
  cases rule with
  | join => exact (push m _ ⟨rfl, rfl, rfl⟩).trans (exec _ _)
  | race => exact exec m _

theorem rightDone (m : Machine σ) (r : Outcome) (left : Program σ) (rule : Fork)
    (next : rule.Answer → Program σ) : m.Settled (m.rightDone r left rule next) := by
  cases rule with
  | race => exact exec m _
  | join =>
    cases left with
    | done a => exact exec m _
    | _ => exact pause m _ List.suffix_rfl

theorem pollMerge (m : Machine σ) (l : LoopId) (t : TaskId) (d : Deferral) :
    m.Settled (m.pollMerge l t d) := by
  have hwait : ∀ p d', m.Settled
      ({ m with store := m.store.register ⟨l, t⟩ p }.suspend l t (.merge d')) := fun p d' =>
    changed ((Store.Books.register m.store ⟨l, t⟩ p).trans (.putTask _ l t _)) rfl
  have hcomplete : ∀ r, m.Settled ((m.push (.task l t (.merge d))).answer r) := fun r =>
    (push m _ ⟨rfl, rfl, rfl⟩).trans (answer _ r)
  rw [Machine.pollMerge]
  split
  · exact hwait _ _
  · exact hcomplete _
  split
  · exact hwait _ _
  · exact hcomplete _
  · next left _ _ right _ =>
    have hmerged := Store.Books.evolves ((Infer.mergeDeferred l d left right).run.evolves m.store)
    refine (changed hmerged rfl : m.Settled { m with store := _ }).trans ?_
    exact (push _ _ ⟨rfl, rfl, rfl⟩).trans (answer _ _)

theorem pollTask (m : Machine σ) (l : LoopId) (t : TaskId) (body : TaskBody) :
    m.Settled (m.pollTask l t body) := by
  cases body with
  | merge d => exact pollMerge m l t d
  | code i => exact (push m _ ⟨rfl, rfl, rfl⟩).trans (exec _ _)
  | watched i => exact (push m _ ⟨rfl, rfl, rfl⟩).trans (exec _ _)

theorem askRank (m : Machine σ) (p : Option PendingId) : m.Settled (m.askRank p) := by
  cases p with
  | none => exact answer m _
  | some p => exact go rfl rfl

theorem startRule (m : Machine σ) (p : PendingId) : m.Settled (m.startRule p) := by
  rw [Machine.startRule]
  split
  · exact answer m _
  · exact answer m _
  · split
    · exact exec m _
    · exact answer m _
  · exact (push m _ ⟨rfl, rfl, rfl⟩).trans (askRank _ _)

theorem noneLeft (m : Machine σ) (l : LoopId) (aim : Aim) : m.Settled (m.noneLeft l aim) := by
  cases aim with
  | drive goal => exact deadlocked m l
  | finish =>
    rw [Machine.noneLeft]
    split
    · exact answer m _
    · exact (record m _).trans (answer _ _)

/-- A loop that exists asks for the rank of a pending, to compare it with others. -/
theorem pushChoosing (m : Machine σ) (hl : l < m.store.loops.size) (aim : Aim)
    (best : Option (PendingId × Option Int)) (p : PendingId) (rest : List PendingId) :
    m.Settled (m.push (.choosing l aim best p rest)) where
  books := .refl _
  resolvers := Nat.le_refl _
  charges l' := by
    rw [Machine.charges, Machine.push, List.countP_cons_of_neg (by simp [Frame.chargingLoop?])]
    exact Nat.le_refl _
  housed hm f hf l' hl' := by
    rcases List.mem_cons.mp hf with rfl | hf
    · exact Option.some.inj hl' ▸ hl
    · exact hm f hf l' hl'

end Settled

/-! ### Choosing a pending -/

/-- **Going through pendings** ends at the first one that can be forced, whose rank is asked for;
without one, the best one so far is counted, or there is none. -/
theorem pick_cases (m : Machine σ) (l : LoopId) (aim : Aim)
    (best : Option (PendingId × Option Int)) (ps : List PendingId) :
    (∃ before p rest, ps = before ++ p :: rest ∧ (∀ q ∈ before, m.eligible aim q = false) ∧
      m.eligible aim p = true ∧
      m.pick l aim best ps = (m.push (.choosing l aim best p rest)).askRank (some p)) ∨
    (∀ q ∈ ps, m.eligible aim q = false) ∧
      ((∃ p rank, best = some (p, rank) ∧ m.pick l aim best ps = m.charge l aim p) ∨
        best = none ∧ m.pick l aim best ps = m.noneLeft l aim) := by
  induction ps with
  | nil =>
    refine .inr ⟨fun q hq => absurd hq List.not_mem_nil, ?_⟩
    rcases best with _ | ⟨p, rank⟩
    · exact .inr ⟨rfl, rfl⟩
    · exact .inl ⟨p, rank, rfl, rfl⟩
  | cons p ps ih =>
    rw [pick]
    split
    · next heligible =>
      exact .inl ⟨[], p, ps, rfl, fun q hq => absurd hq List.not_mem_nil, heligible, rfl⟩
    · next hnot =>
      have hp : m.eligible aim p = false := Bool.eq_false_iff.mpr hnot
      have hcons : ∀ {qs : List PendingId}, (∀ q ∈ qs, m.eligible aim q = false) →
          ∀ q ∈ p :: qs, m.eligible aim q = false := by
        intro qs hqs q hq
        rcases List.mem_cons.mp hq with rfl | hq
        · exact hp
        · exact hqs q hq
      rcases ih with ⟨before, q, rest, rfl, hbefore, hq, hpick⟩ | ⟨hnone, hend⟩
      · exact .inl ⟨p :: before, q, rest, rfl, hcons hbefore, hq, hpick⟩
      · exact .inr ⟨hcons hnone, hend⟩

/-- A loop with a pending exists. -/
theorem loop_lt_of_pending {s : Store} (h : p ∈ (s.loop l).pendings) : l < s.loops.size := by
  by_contra hge
  rw [Store.loop_of_absent (Nat.not_lt.mp hge)] at h
  exact absurd h List.not_mem_nil

/-- A loop that begins to choose counts nothing yet. -/
theorem settled_choose (m : Machine σ) (l : LoopId) (aim : Aim) : m.Settled (m.choose l aim) := by
  rw [choose]
  rcases m.pick_cases l aim none (m.store.loop l).pendings with
    ⟨before, p, rest, hps, -, -, hpick⟩ | ⟨-, ⟨p, rank, hnone, -⟩ | ⟨-, hpick⟩⟩
  · rw [hpick]
    have hp : p ∈ (m.store.loop l).pendings := hps ▸ List.mem_append_right _ List.mem_cons_self
    exact (Settled.pushChoosing m (loop_lt_of_pending hp) aim none p rest).trans (.askRank _ _)
  · exact nomatch hnone
  · exact hpick ▸ .noneLeft m l aim

/-! ### Steps -/

/-- What a step does to the books: nothing is counted, and no loop starts a resolver on its own
account; or a loop counts a pending; or it goes on to force one that it has counted. -/
inductive Accounted (m : Machine σ) : Machine σ → Prop where
  | free {m' : Machine σ} (books : m.store.Books m'.store) (charges : ∀ l, m'.charges l ≤ m.charges l)
      (own : m'.resolvers.length ≤ m.resolvers.length ∨ m'.forcedBy? = none) : Accounted m m'
  | counted {m' : Machine σ} {l : LoopId} (known : l < m.store.loops.size)
      (within : (m.store.loop l).forced < (m.store.loop l).config.maxForced)
      (store : m'.store = m.store.counted l) (resolvers : m'.resolvers = m.resolvers)
      (charges : ∀ l', m'.charges l' ≤ m.charges l' + if l = l' then 1 else 0) : Accounted m m'
  | forced {m' : Machine σ} {l : LoopId} (books : m.store.Books m'.store)
      (charges : ∀ l', m'.charges l' + (if l = l' then 1 else 0) ≤ m.charges l')
      (own : m'.resolvers.length ≤ m.resolvers.length ∨ m'.forcedBy? = some l) : Accounted m m'

theorem Settled.accounted (h : m.Settled m') (hm : m.Housed) : m.Accounted m' ∧ m'.Housed :=
  ⟨.free h.books h.charges (.inl h.resolvers), h.housed hm⟩

/-- The resolver of a pending starts if it is there. -/
theorem startResolver_cases (m : Machine σ) (p : PendingId) :
    (m.store.resolver? p = none ∧ m.startResolver p = m.answer unit) ∨
    ∃ r control, m.store.resolver? p = some r ∧ m.startResolver p =
      { m with store := m.store.taken p, stack := .resolving p :: m.stack, control } := by
  cases hres : m.store.resolver? p with
  | none =>
    refine .inl ⟨rfl, ?_⟩
    rw [startResolver, Store.beginResolving, ← Store.resolver?, hres]
  | some r =>
    refine .inr ⟨r, ?_⟩
    rw [startResolver, Store.beginResolving_some hres]
    cases r with
    | operands left right => exact ⟨_, rfl, rfl⟩
    | code i =>
      simp only
      split <;> exact ⟨_, trivial, rfl⟩

/-- What is on the stack after the resolver of a pending was started, or was not there. -/
theorem startResolver_account (m : Machine σ) (p : PendingId) :
    m.store.Books (m.startResolver p).store ∧ (∀ l, (m.startResolver p).charges l = m.charges l) ∧
      (m.Housed → (m.startResolver p).Housed) ∧
      ((m.startResolver p).resolvers.length ≤ m.resolvers.length ∨
        (m.startResolver p).stack = .resolving p :: m.stack) := by
  rcases m.startResolver_cases p with ⟨-, h⟩ | ⟨r, control, -, h⟩
  · rw [h]
    exact ⟨.refl _, fun _ => rfl, id, .inl (Nat.le_refl _)⟩
  · rw [h]
    refine ⟨.taken m.store p, fun l => ?_, fun hm f hf l hl => ?_, .inr rfl⟩
    · exact List.countP_cons_of_neg (by simp [Frame.chargingLoop?])
    · rcases List.mem_cons.mp hf with rfl | hf
      · exact nomatch hl
      · exact Nat.lt_of_lt_of_eq (hm f hf l hl) rfl

theorem accounted_startForce (h : m.Settled m₁) (hm : m.Housed) (l : LoopId) (p : PendingId) :
    m.Accounted (m₁.startForce l p) ∧ (m₁.startForce l p).Housed := by
  rw [startForce]
  split
  · exact (h.trans (.answer m₁ _)).accounted hm
  split
  · exact ((h.trans (.record m₁ _)).trans (.answer _ _)).accounted hm
  have hcalled : m.Settled (m₁.push (.forcing l p)) := h.trans (.push m₁ _ ⟨rfl, rfl, rfl⟩)
  split
  · -- the resolver is started for a caller
    obtain ⟨hbooks, hcharges, hhoused, hown⟩ := (m₁.push (.forcing l p)).startResolver_account p
    refine ⟨.free (hcalled.books.trans hbooks) (fun l' => hcharges l' ▸ hcalled.charges l') ?_,
      hhoused (hcalled.housed hm)⟩
    refine hown.imp (Nat.le_trans · hcalled.resolvers) fun hstack => ?_
    rw [forcedBy?, hstack]
    rfl
  · exact (hcalled.trans (.startDrive _ l _)).accounted hm

/-- A frame of a loop that has counted a pending counts once. -/
theorem countP_charging (l l' : LoopId) (aim : Aim) (p : PendingId) (rest : List (Frame σ)) :
    (Frame.charging l aim p :: rest).countP (fun f => f.chargingLoop? = some l') =
      rest.countP (fun f => f.chargingLoop? = some l') + if l = l' then 1 else 0 := by
  rw [List.countP_cons]
  simp [Frame.chargingLoop?]

/-- A loop counts the pending it has chosen, unless it has forced as many as it may. -/
theorem accounted_charge (h : m.Settled m₁) (hm : m.Housed) (hsame : m₁.store = m.store)
    (hresolvers : m₁.resolvers = m.resolvers) (hl : l < m.store.loops.size) (aim : Aim)
    (p : PendingId) : m.Accounted (m₁.charge l aim p) ∧ (m₁.charge l aim p).Housed := by
  rw [charge]
  dsimp only
  split
  · exact (h.trans (.deadlocked m₁ l)).accounted hm
  next hbudget =>
  rw [Nat.not_le, hsame] at hbudget
  refine ⟨.counted hl hbudget (by rw [← hsame]; rfl) ?_ fun l' => ?_, fun f hf l' hl' => ?_⟩
  · rw [← hresolvers]
    rfl
  · refine Nat.le_trans (Nat.le_of_eq (countP_charging l l' aim p m₁.stack)) ?_
    exact Nat.add_le_add_right (h.charges l') _
  · rcases List.mem_cons.mp hf with rfl | hf
    · cases hl'
    · exact Nat.lt_of_lt_of_eq (h.housed hm f hf l' hl') Array.size_modify.symm

theorem settled_driveOn (m : Machine σ) (l : LoopId) (goal : Goal) :
    m.Settled (m.driveOn l goal) := by
  rw [driveOn]
  split
  · next e errors _ =>
    exact .changed (.modifyLoop m.store l (fun _ => rfl) fun _ => rfl) rfl
  split
  · exact .answer m _
  · exact settled_choose m l _

theorem accounted_execute (hm : m.Housed) (code : Program σ) :
    m.Accounted (m.execute code) ∧ (m.execute code).Housed := by
  have free : ∀ {m' : Machine σ}, m.Settled m' → m.Accounted m' ∧ m'.Housed := fun h =>
    h.accounted hm
  have hcalled : ∀ {f : Frame σ}, f.Free → m.Settled (m.push f) := fun {f} => .push m f
  cases code with
  | done outcome => exact free (.answer m outcome)
  | update x next => exact free (.changed (.evolves (x.evolves m.store)) rfl)
  | client f next => exact free (.go rfl rfl)
  | await w next => exact free (.await m w next)
  | fork rule left right next => exact free ((hcalled ⟨rfl, rfl, rfl⟩).trans (.exec _ _))
  | spawn l task next =>
    exact free (.changed (.spawn m.store l (.code m.codes.size)) rfl)
  | pending l resolver rule next =>
    exact free (.changed (.openPending m.store l (some (.code m.codes.size))
      (.code m.rules.size)) rfl)
  | rank p next => exact free ((hcalled ⟨rfl, rfl, rfl⟩).trans (.go rfl rfl))
  | runReady l next => exact free ((hcalled ⟨rfl, rfl, rfl⟩).trans (.go rfl rfl))
  | run l next => exact free ((hcalled ⟨rfl, rfl, rfl⟩).trans (.startDrive _ l _))
  | finish l next =>
    exact free (((hcalled ⟨rfl, rfl, rfl⟩).trans
      (.push _ (.finishRunning l) ⟨rfl, rfl, rfl⟩)).trans (.startDrive _ l _))
  | force l p next => exact accounted_startForce (hcalled ⟨rfl, rfl, rfl⟩) hm l p
  | runUntil l task next =>
    have hspawned : m.Settled { m with
        codes := m.codes.push task
        store := (m.store.spawn l (.watched m.codes.size)).2 } :=
      .changed (.spawn m.store l _) rfl
    simp only [execute, addCode, spawn]
    rcases hspawn : m.store.spawn l (.watched m.codes.size) with ⟨_ | t, s⟩
    · rw [hspawn] at hspawned
      exact free (hspawned.trans (.exec _ _))
    · rw [hspawn] at hspawned
      exact free (((hspawned.trans (.push _ (.client next) ⟨rfl, rfl, rfl⟩)).trans
        (.push _ (.watching l t) ⟨rfl, rfl, rfl⟩)).trans (.startDrive _ l _))

theorem settled_pollNext (m : Machine σ) (l : LoopId) (polled : Bool) :
    m.Settled (m.pollNext l polled) := by
  rw [pollNext]
  split
  · rw [allPolled]
    split
    · next hstack => exact (Settled.pop hstack).trans (settled_driveOn _ _ _)
    · next hstack => exact (Settled.pop hstack).trans (.exec _ _)
    · exact .answer m _
  next t ready hready =>
  have hhead : m.Settled { m with
      store := m.store.modifyLoop l fun loop => { loop with ready } } :=
    .changed (.modifyLoop m.store l (fun _ => rfl) fun _ => rfl) rfl
  dsimp only
  split
  · exact hhead.trans (.go rfl rfl)
  · next body _ =>
    refine .trans ?_ (.pollTask _ l t body)
    exact hhead.trans (.changed (.dropTask _ l t) rfl)

theorem accounted_resume {r : Outcome} {f : Frame σ} {rest : List (Frame σ)} (hm : m.Housed)
    (hstack : m.stack = f :: rest) :
    m.Accounted ({ m with stack := rest }.resume r f) ∧
      ({ m with stack := rest }.resume r f).Housed := by
  have free : ∀ {m' : Machine σ}, m.Settled m' → m.Accounted m' ∧ m'.Housed := fun h =>
    h.accounted hm
  have hpop := Settled.pop hstack
  cases f with
  | client next => exact free (hpop.trans (.exec _ _))
  | polled next => exact free (hpop.trans (.exec _ _))
  | ranked next => exact free (hpop.trans (.exec _ _))
  | left rule right next => exact free (hpop.trans (.leftDone _ r right rule next))
  | right rule left next => exact free (hpop.trans (.rightDone _ r left rule next))
  | choosing l aim best p ps =>
    have hl : l < m.store.loops.size := hm _ (hstack ▸ List.mem_cons_self) l rfl
    rw [resume]
    rcases pick_cases { m with stack := rest } l aim (some (better best p (rankOf r))) ps with
      ⟨before, q, qs, -, -, -, hpick⟩ | ⟨-, ⟨q, rank, -, hpick⟩ | ⟨hnone, -⟩⟩
    · rw [hpick]
      have hasked := Settled.pushChoosing { m with stack := rest } hl aim
        (some (better best p (rankOf r))) q qs
      exact free ((hpop.trans hasked).trans (.askRank _ _))
    · rw [hpick]
      refine accounted_charge hpop hm rfl ?_ hl aim q
      rw [resolvers, resolvers, hstack]
      rfl
    · cases hnone
  | charging l aim p =>
    rw [resume, charged]
    have hnoted : Settled { m with stack := rest } _ := (Settled.record { m with stack := rest }
      (.forced (m.store.pendingNumber p) (rankOf r))).trans (.push _ _ (aim.free_frame l))
    obtain ⟨hbooks, hcharges, hhoused, hown⟩ := startResolver_account
      ({ m with store := m.store.record (.forced (m.store.pendingNumber p) (rankOf r)),
                stack := rest }.push (aim.frame l)) p
    refine ⟨.forced (l := l) (hnoted.books.trans hbooks) (fun l' => ?_) ?_,
      hhoused (hnoted.housed (hpop.housed hm))⟩
    · -- the frame of the loop that has counted the pending is gone
      have hcount : m.charges l' = Machine.charges { m with stack := rest } l' +
          if l = l' then 1 else 0 := by
        rw [charges, hstack]
        exact countP_charging l l' aim p rest
      rw [hcount]
      exact Nat.add_le_add_right (hcharges l' ▸ hnoted.charges l') _
    · refine hown.imp (fun hle => ?_) fun hstart => ?_
      · exact Nat.le_trans hle (Nat.le_trans hnoted.resolvers hpop.resolvers)
      · rw [forcedBy?, hstart]
        exact aim.forcingLoop?_frame l
  | leftRank right =>
    exact free ((hpop.trans (.push _ (.rightRank r) ⟨rfl, rfl, rfl⟩)).trans (.askRank _ _))
  | rightRank left => exact free (hpop.trans (.answer _ _))
  | task l t body => exact free (hpop.trans (.taskDone _ l t body r))
  | drive l goal => exact free (hpop.trans (.answer _ _))
  | resolving p => exact free (hpop.trans (.resolved _ p r))
  | driveForcing l goal =>
    cases r with
    | error e => exact free (hpop.trans (.answer _ _))
    | ok slot => exact free (hpop.trans (.startDrive _ l goal))
  | forcing l p =>
    cases r with
    | error e => exact free (hpop.trans (.answer _ _))
    | ok slot => exact free (hpop.trans (.forceDone _ l p))
  | finishRunning l =>
    cases r with
    | error e => exact free (hpop.trans (.answer _ _))
    | ok slot => exact free (hpop.trans (settled_choose _ l .finish))
  | finishForcing l =>
    cases r with
    | error e => exact free (hpop.trans (.answer _ _))
    | ok slot =>
      exact free ((hpop.trans (.push _ (.finishRunning l) ⟨rfl, rfl, rfl⟩)).trans
        (.startDrive _ l _))
  | watching l t =>
    cases r with
    | error e => exact free (hpop.trans (.answer _ _))
    | ok slot => exact free (hpop.trans (.takeOutcome _ l t))

/-- **Every step** counts nothing and starts no resolver on a loop's own account, or a loop counts a
pending, or it forces one that it has counted. -/
theorem step_books (hm : m.Housed) (h : m.step = some m') : m.Accounted m' ∧ m'.Housed := by
  rw [step] at h
  split at h
  · cases h
    exact accounted_execute hm _
  · cases h
    exact (settled_pollNext m _ _).accounted hm
  · cases h
    exact (Settled.startRule m _).accounted hm
  · split at h
    · cases h
    · next hstack =>
      cases h
      exact accounted_resume hm hstack

theorem Reachable.housed (h : m.Reachable) : m.Housed := by
  induction h with
  | start client code => exact fun f hf => absurd hf List.not_mem_nil
  | step _ hstep ih => exact (step_books ih hstep).2

/-- **Every step** keeps the lists of the loops right. -/
theorem Accounted.registered (h : m.Accounted m') (hm : m.store.Registered) :
    m'.store.Registered := by
  cases h with
  | free books _ _ => exact books.registered hm
  | counted _ _ store _ _ => exact store ▸ hm.counted _
  | forced books _ _ => exact books.registered hm

/-- **Along every run** the list of each loop holds its pendings in order. -/
theorem Reachable.registered (h : m.Reachable) : m.store.Registered := by
  induction h with
  | start client code => exact fun l => ⟨rfl, rfl⟩
  | step h hstep ih => exact (step_books h.housed hstep).1.registered ih

end Machine

end ValueInference

import AddressFormulas.Proofs.Walk.Safety
import AddressFormulas.Walk.Recorder
import Mathlib.Tactic.Ring

/-!
How the calls of a slicer nest. Calls are checked one after another against what is open: a call
that closes has to close what was opened last, and a register is sliced only at the beginning of a
walk or as a source of the micro-op that was entered last. The calls of every walk that comes to an
end pass the check and leave nothing open, whatever the slicer answers.
-/

namespace AddressFormulas

inductive Opening where
  | op (block index : Nat) (reg : Register) (entered : Bool)
  | edge (edge : Nat) (reg : Register)
  deriving DecidableEq, Repr

structure Nest where
  /-- The last one comes first. -/
  openings : List Opening := []
  /-- Nothing was sliced since the beginning or since the last edge was entered. -/
  fresh : Bool := true
  deriving DecidableEq, Repr

namespace Nest

def isOpen (n : Nest) : Bool :=
  match n.openings with
  | .op _ _ _ entered :: _ => entered
  | _ => true

def maySlice (n : Nest) : Bool :=
  match n.openings with
  | .op _ _ _ entered :: _ => entered
  | _ => n.fresh

def after (n : Nest) : Call → Option Nest
  | .bound _ | .fixedValue .. => if n.maySlice then some { n with fresh := false } else none
  | .enterOp b i reg entered =>
    if n.isOpen then some ⟨.op b i reg entered :: n.openings, false⟩ else none
  | .leaveOp b i reg =>
    match n.openings with
    | .op b' i' reg' _ :: rest =>
      if b' = b ∧ i' = i ∧ reg' = reg then some ⟨rest, false⟩ else none
    | _ => none
  | .enterEdge e reg true => if n.isOpen then some ⟨.edge e reg :: n.openings, true⟩ else none
  | .leaveEdge e reg =>
    match n.openings with
    | .edge e' reg' :: rest => if e' = e ∧ reg' = reg then some ⟨rest, false⟩ else none
    | _ => none
  | .enterEdge _ _ false | .enterBlock .. | .leaveBlock .. => if n.isOpen then some n else none

def afterAll (n : Nest) (calls : List Call) : Option Nest := calls.foldlM after n

theorem isOpen_of_maySlice {n : Nest} (h : n.maySlice = true) : n.isOpen = true := by
  unfold maySlice at h
  unfold isOpen
  split at h
  · exact h
  · rfl

theorem isOpen_congr {n n' : Nest} (h : n'.openings = n.openings) : n'.isOpen = n.isOpen := by
  unfold isOpen
  rw [h]

end Nest

/-- All calls are in order, and nothing is left open. -/
def WellNested (calls : List Call) : Prop :=
  ∃ n, ({} : Nest).afterAll calls = some n ∧ n.openings = []

/-- A counter of some edges, lowered on the way along them and raised on the way back. -/
def Call.count (counted : Nat → Bool) (k : Int) : Call → Int
  | .enterEdge e _ true => if counted e then k - 1 else k
  | .leaveEdge e _ => if counted e then k + 1 else k
  | _ => k

namespace Nest

def openEdges (counted : Nat → Bool) (n : Nest) : Nat :=
  n.openings.countP fun o =>
    match o with
    | .edge e _ => counted e
    | .op .. => false

theorem count_after (counted : Nat → Bool) {n n' : Nest} {c : Call} (h : n.after c = some n')
    (k : Int) :
    c.count counted k + n'.openEdges counted = k + n.openEdges counted := by
  have kept : n'.openings = n.openings → c.count counted k = k →
      c.count counted k + n'.openEdges counted = k + n.openEdges counted := by
    intro ho hc
    rw [hc, openEdges, ho, openEdges]
  -- only entering and leaving an edge change the edges that are open
  unfold after at h
  split at h
  · obtain ⟨_, ⟨⟩⟩ := Option.ite_none_right_eq_some.mp h
    exact kept rfl rfl
  · obtain ⟨_, ⟨⟩⟩ := Option.ite_none_right_eq_some.mp h
    exact kept rfl rfl
  · obtain ⟨_, ⟨⟩⟩ := Option.ite_none_right_eq_some.mp h
    simp [openEdges, Call.count]
  · split at h
    · next ho =>
      obtain ⟨_, ⟨⟩⟩ := Option.ite_none_right_eq_some.mp h
      simp [openEdges, Call.count, ho]
    · cases h
  · next e _ =>
    obtain ⟨_, ⟨⟩⟩ := Option.ite_none_right_eq_some.mp h
    simp only [openEdges, Call.count, List.countP_cons]
    split
    · push_cast
      ring
    · simp
  · split at h
    · next ho =>
      obtain ⟨⟨rfl, _⟩, ⟨⟩⟩ := Option.ite_none_right_eq_some.mp h
      simp only [openEdges, Call.count, ho, List.countP_cons]
      split
      · push_cast
        ring
      · simp
    · cases h
  · obtain ⟨_, ⟨⟩⟩ := Option.ite_none_right_eq_some.mp h
    exact kept rfl rfl
  · obtain ⟨_, ⟨⟩⟩ := Option.ite_none_right_eq_some.mp h
    exact kept rfl rfl
  · obtain ⟨_, ⟨⟩⟩ := Option.ite_none_right_eq_some.mp h
    exact kept rfl rfl

theorem count_afterAll (counted : Nat → Bool) {n n' : Nest} {calls : List Call}
    (h : n.afterAll calls = some n') (k : Int) :
    calls.foldl (Call.count counted) k + n'.openEdges counted = k + n.openEdges counted := by
  induction calls generalizing n k with
  | nil =>
    cases h
    rfl
  | cons c calls ih =>
    obtain ⟨n₁, h₁, h₂⟩ := Option.bind_eq_some_iff.mp h
    rw [List.foldl_cons, ih h₂, count_after counted h₁]

end Nest

theorem WellNested.count {calls : List Call} (h : WellNested calls) (counted : Nat → Bool)
    (k : Int) : calls.foldl (Call.count counted) k = k := by
  obtain ⟨n, hn, ho⟩ := h
  simpa [Nest.openEdges, ho] using Nest.count_afterAll counted hn k

namespace Recorder

open WalkM

variable {μ α β : Type} {policy : Policy μ} {w : Walk (Record μ)}

def At (n : Nest) (w : Walk (Record μ)) : Prop :=
  ({} : Nest).afterAll w.client.calls.reverse = some n

theorem At.note {n n' : Nest} {c : Call} (h : At n w) (hc : n.after c = some n') :
    wp (Recorder.note policy c) (fun _ w' => At n' w') (fun _ _ => True) w := by
  change ({} : Nest).afterAll (c :: w.client.calls).reverse = some n'
  rw [List.reverse_cons, Nest.afterAll, List.foldlM_append]
  refine Option.bind_eq_some_iff.mpr ⟨n, h, ?_⟩
  simp [hc]

theorem At.answer {n : Nest} (h : At n w) (decide : μ → Bool) (call : Bool → Call) :
    wp (Recorder.answer policy decide call)
      (fun a w' => ∀ n', n.after (call a) = some n' → At n' w') (fun _ _ => True) w :=
  fun _ hc => h.note hc

def Keeps (n : Nest) (m : WalkM (Record μ) α) : Prop :=
  ∀ w, At n w → wp m (fun _ w' => At n w') (fun _ _ => True) w

theorem keeps_of_silent {n : Nest} {m : WalkM (Record μ) α}
    (h : m.StopsOnly (fun _ => True) Walk.client) : Keeps n m := by
  intro w hw
  refine wp_imp (h w) fun _ w' hc => ?_
  unfold At
  rw [hc]
  exact hw

/-- Made while `n` is open, the calls of `m` are in order and leave open what was open. -/
def Within (n : Nest) (m : WalkM (Record μ) α) : Prop :=
  ∀ w, At n w → wp m (fun _ w' => ∃ n', n'.openings = n.openings ∧ At n' w') (fun _ _ => True) w

namespace Within

variable {n : Nest} {m : WalkM (Record μ) α}

theorem bind {f : α → WalkM (Record μ) β} (h : Within n m)
    (hf : ∀ a n', n'.openings = n.openings → Within n' (f a)) : Within n (m >>= f) := by
  intro w hw
  refine wp_bind.mpr (wp_imp (h w hw) ?_)
  rintro a w' ⟨n', ho, hw'⟩
  refine wp_imp (hf a n' ho w' hw') ?_
  rintro _ w'' ⟨n'', ho', hw''⟩
  exact ⟨n'', ho'.trans ho, hw''⟩

theorem ok (a : α) : Within n (pure a : WalkM (Record μ) α) := fun _ hw => ⟨n, rfl, hw⟩

theorem keeps_bind {f : α → WalkM (Record μ) β} (h : Keeps n m) (hf : ∀ a, Within n (f a)) :
    Within n (m >>= f) := fun w hw =>
  wp_bind.mpr (wp_imp (h w hw) fun a w' => hf a w')

theorem require_bind {a? : Option α} {f : α → WalkM (Record μ) β} (hf : ∀ a, Within n (f a)) :
    Within n (WalkM.require a? >>= f) := by
  cases a? with
  | none => exact fun _ _ => trivial
  | some a => exact hf a

theorem tell_bind {f : Unit → WalkM (Record μ) β} (e : Event) (hf : ∀ a, Within n (f a)) :
    Within n (WalkM.tell e >>= f) :=
  .keeps_bind (keeps_of_silent (.tell e fun _ => rfl)) hf

theorem report_bind {f : Unit → WalkM (Record μ) β} (strict : Bool) {failure : Failure}
    (hg : failure.isCoverageGap = true) (hf : ∀ a, Within n (f a)) :
    Within n (WalkM.report strict failure >>= f) :=
  .keeps_bind (keeps_of_silent (.report_gap (fun _ _ _ => trivial) hg fun _ => rfl)) hf

theorem note {c : Call} {n' : Nest} (hc : n.after c = some n') (ho : n'.openings = n.openings) :
    Within n (Recorder.note policy c) := fun _ hw =>
  wp_imp (hw.note hc) fun _ _ h => ⟨n', ho, h⟩

end Within

section Engine

variable {g : Graph} {strict : Bool} {bases : OperandTable} {n : Nest}

def WalksWithin (walk : Slicer.WalkFor (Record μ)) : Prop :=
  ∀ n p reg bounds, n.maySlice = true → Within n (walk p reg bounds)

def FollowsWithin (follow : Slicer.FollowFor (Record μ)) : Prop :=
  ∀ n p address, n.maySlice = true → Within n (follow p address)

theorem enterBlock_keeps (h : n.isOpen = true) (b : Nat) (reg : Register) :
    Keeps n ((slicer policy strict bases).enterBlock b reg) := fun _ hn =>
  wp_imp (hn.answer (policy.entersBlock · b reg) (.enterBlock b reg)) fun _ _ h' => h' n (if_pos h)

theorem fixedValue_within (h : n.maySlice = true) (reg : Register) (u : MicroOp) (v : Int) :
    Within n ((slicer policy strict bases).fixedValue reg u v) :=
  .note (if_pos h) rfl

theorem leaveBlock_within (h : n.isOpen = true) (b : Nat) (reg : Register) :
    Within n ((slicer policy strict bases).leaveBlock b reg) :=
  .note (if_pos h) rfl

theorem alongEdges_within {reg : Register} {across : Nat → WalkM (Record μ) α} {enough : α → Bool}
    {last : WalkM (Record μ) α} (h : n.isOpen = true)
    (hlast : ∀ n' : Nest, n'.isOpen = true → Within n' last)
    (hacross : ∀ e (n' : Nest), n'.maySlice = true → Within n' (across e)) (edges : List Nat) :
    Within n ((slicer policy strict bases).alongEdges reg across enough last edges) := by
  -- an edge that is entered is left again, so the rest starts with the same openings
  induction edges generalizing n with
  | nil => exact hlast n h
  | cons e rest ih =>
    have afterwards : ∀ a n', n'.openings = n.openings → Within n' (do
        if enough a then return a
        if ← (slicer policy strict bases).tryOthers e reg then
          (slicer policy strict bases).alongEdges reg across enough last rest
        else return a) := by
      intro a n' ho
      split
      · exact .ok a
      · refine .keeps_bind (keeps_of_silent (.bind .client fun _ => .ok _)) fun again => ?_
        split
        · exact ih (Nest.isOpen_congr ho ▸ h)
        · exact .ok a
    intro w hn
    refine wp_bind.mpr (wp_imp (hn.answer (policy.entersEdge · e reg) (.enterEdge e reg)) ?_)
    intro entered w₁ h₁
    cases entered with
    | false => exact ih h w₁ (h₁ n (if_pos h))
    | true =>
      refine wp_bind.mpr (wp_imp (hacross e ⟨.edge e reg :: n.openings, true⟩ rfl w₁ (h₁ _ (if_pos h))) ?_)
      rintro a w₂ ⟨n₂, ho, h₂⟩
      have back : n₂.after (.leaveEdge e reg) = some ⟨n.openings, false⟩ := by
        simp [Nest.after, ho]
      refine wp_bind.mpr (wp_imp (h₂.note back) fun _ w₃ h₃ => ?_)
      exact afterwards a ⟨n.openings, false⟩ rfl w₃ h₃

section Walks

variable {walk : Slicer.WalkFor (Record μ)} (hw : WalksWithin walk)

include hw

theorem sliceWith_within (h : n.maySlice = true) (p : Position) (reg : Register) (bounds : Bounds) :
    Within n ((slicer policy strict bases).sliceWith walk p reg bounds) :=
  hw n p reg bounds h

theorem congruence_within (h : n.maySlice = true) (u : Placed) :
    Slicer.SourceCongruence (slicer policy strict bases) (slicer policy strict bases) walk walk u
      fun _ m _ => Within n m where
  ok := .ok
  answer a hm := .bind hm fun _ _ _ => .ok a
  reported hf hm := .report_bind _ (Failure.isCoverageGap_of_isAboutSources hf) fun _ => hm
  slice reg := sliceWith_within hw h _ reg _
  fixedValue reg v _ := fixedValue_within h reg u.op v

theorem sliceSources_within (hn : ∀ n' : Nest, n'.openings = n.openings → n'.maySlice = true)
    (u : Placed) (sources : List Register) :
    Within n ((slicer policy strict bases).sliceSources walk u sources) := by
  induction sources generalizing n with
  | nil => exact .ok _
  | cons source rest ih =>
    refine .bind ((congruence_within hw (hn n rfl) u).sliceSource source) fun _ n' ho => ?_
    exact ih fun n'' ho' => hn n'' (ho'.trans ho)

theorem walkEdges_within (h : n.isOpen = true) (b : Nat) (reg : Register) (edges : List Nat) :
    Within n ((slicer policy strict bases).walkEdges g walk b reg edges) := by
  rw [Slicer.walkEdges_eq]
  refine alongEdges_within h (fun _ h' => leaveBlock_within h' b reg) (fun e n' hn' => ?_) edges
  exact .require_bind fun _ => .require_bind fun _ =>
    .keeps_bind (keeps_of_silent .read) fun _ => hw _ _ reg _ hn'

theorem walkNext_within (h : n.isOpen = true) (b : Nat) (reg : Register) :
    Within n ((slicer policy strict bases).walkNext g walk b reg) := by
  refine .keeps_bind (enterBlock_keeps h b reg) fun entered => ?_
  split
  · exact .require_bind fun _ => walkEdges_within hw h b reg _
  · exact .ok _

theorem definition_within (h : n.isOpen = true) (follow : Slicer.FollowFor (Record μ)) (u : Placed)
    (reg : Register) : Within n (do
      if ← (slicer policy strict bases).enterOp follow u reg then
        (slicer policy strict bases).sliceSources walk u u.op.sourceRegisters
      (slicer policy strict bases).leaveOp u reg) := by
  have leave : ∀ entered n₂ w₂, n₂.openings = .op u.block u.index reg entered :: n.openings →
      At n₂ w₂ → wp ((slicer policy strict bases).leaveOp u reg)
        (fun _ w' => ∃ n', n'.openings = n.openings ∧ At n' w') (fun _ _ => True) w₂ := by
    intro entered n₂ w₂ ho h₂
    have back : n₂.after (.leaveOp u.block u.index reg) = some ⟨n.openings, false⟩ := by
      simp [Nest.after, ho]
    exact wp_imp (h₂.note back) fun _ w₃ h₃ => ⟨⟨n.openings, false⟩, rfl, h₃⟩
  intro w hn
  have enter : wp ((slicer policy strict bases).enterOp follow u reg)
      (fun entered w₁ => At ⟨.op u.block u.index reg entered :: n.openings, false⟩ w₁)
      (fun _ _ => True) w := by
    refine wp_bind.mpr ((wp_tellAll _).mpr ?_)
    have told : At n { w with journal := (policy.looksAt u.op).reverse ++ w.journal } := hn
    refine wp_imp (told.answer (policy.entersOp · u reg) (.enterOp u.block u.index reg)) ?_
    exact fun entered w₁ h₁ => h₁ _ (if_pos h)
  refine wp_bind.mpr (wp_imp enter fun entered w₁ h₁ => ?_)
  cases entered with
  | false => exact leave false _ w₁ rfl h₁
  | true =>
    refine wp_bind.mpr (wp_imp (sliceSources_within hw (fun n' ho => ?_) u _ w₁ h₁) ?_)
    · simp [Nest.maySlice, ho]
    · rintro _ w₂ ⟨n₂, ho, h₂⟩
      exact leave true n₂ w₂ ho h₂

end Walks

section Steps

variable {walk : Slicer.WalkFor (Record μ)} {follow : Slicer.FollowFor (Record μ)}

theorem followEdges_within (hf : FollowsWithin follow) (h : n.isOpen = true) (b : Nat)
    (address : Formula) (edges : List Nat) :
    Within n ((slicer policy strict bases).followEdges g follow b address edges) := by
  rw [Slicer.followEdges_eq]
  have last : ∀ n' : Nest, n'.isOpen = true → Within n' (do
      (slicer policy strict bases).leaveBlock b .absent
      return none : WalkM (Record μ) (Option Register)) :=
    fun _ h' => .bind (leaveBlock_within h' b .absent) fun _ _ _ => .ok _
  refine alongEdges_within h last (fun e n' hn' => ?_) edges
  exact .require_bind fun _ => .require_bind fun _ => hf _ _ address hn'

theorem walkStep_within (hw : WalksWithin walk) (follow : Slicer.FollowFor (Record μ)) :
    WalksWithin ((slicer policy strict bases).walkStep g walk follow) := by
  intro n p reg bounds h
  have begins : Within n ((slicer policy strict bases).setBounds bounds) :=
    .keeps_bind (fun _ hn => hn) fun _ => .note (if_pos h) rfl
  refine .bind begins fun _ n' ho => .require_bind fun block => ?_
  have on : n'.isOpen = true := (Nest.isOpen_congr ho).trans (Nest.isOpen_of_maySlice h)
  split
  · exact walkNext_within hw on p.block reg
  · exact .tell_bind _ fun _ => definition_within hw on follow _ _

theorem followStep_within (hw : WalksWithin walk) (hf : FollowsWithin follow) :
    FollowsWithin ((slicer policy strict bases).followStep g walk follow) := by
  intro n p address h
  have on := Nest.isOpen_of_maySlice h
  refine .require_bind fun block => .keeps_bind (keeps_of_silent .client) fun st => ?_
  dsimp only
  split
  · exact .tell_bind _ fun _ => (congruence_within hw h _).sliceStored
  · refine .keeps_bind (enterBlock_keeps on p.block .absent) fun entered => ?_
    split
    · exact followEdges_within hf on p.block address _
    · exact .ok _

variable (policy strict bases g) in
theorem walk_and_follow_within (depth : Nat) :
    WalksWithin ((slicer policy strict bases).walk g depth) ∧
      FollowsWithin ((slicer policy strict bases).follow g depth) := by
  induction depth with
  | zero => exact ⟨fun _ _ _ _ _ _ _ => trivial, fun _ _ _ _ _ _ => trivial⟩
  | succ depth ih => exact ⟨walkStep_within ih.1 _, followStep_within ih.1 ih.2⟩

end Steps

end Engine

theorem Within.wellNested {m : WalkM (Record μ) α} (h : Within {} m) {a : α}
    {w w' : Walk (Record μ)} (hw : w.client.calls = []) (run : m.run w = .ok a w') :
    WellNested w'.client.calls.reverse := by
  have begun : At {} w := by
    unfold At
    rw [hw]
    rfl
  obtain ⟨n, ho, hn⟩ := wp_ok (h w begun) run
  exact ⟨n, hn, ho⟩

/-- Whatever a slicer answers, the calls of a walk for a register and of a search for a store nest,
and a counter of edges that is lowered on entering and raised on leaving comes back to its start. -/
theorem calls_wellNested (policy : Policy μ) (strict : Bool) (bases : OperandTable) (g : Graph)
    (depth : Nat) {w : Walk (Record μ)} (hw : w.client.calls = []) :
    (∀ p reg bounds w',
      ((slicer policy strict bases).slice g depth p reg bounds).run w = .ok () w' →
      WellNested w'.client.calls.reverse ∧
        ∀ counted k, w'.client.calls.reverse.foldl (Call.count counted) k = k) ∧
    ∀ p address found w',
      ((slicer policy strict bases).follow g depth p address).run w = .ok found w' →
      WellNested w'.client.calls.reverse ∧
        ∀ counted k, w'.client.calls.reverse.foldl (Call.count counted) k = k := by
  obtain ⟨walks, follows⟩ := walk_and_follow_within policy g strict bases depth
  constructor
  · intro p reg bounds w' run
    have slices : Within {} ((slicer policy strict bases).slice g depth p reg bounds) :=
      sliceWith_within walks rfl p reg bounds
    have nested := slices.wellNested hw run
    exact ⟨nested, nested.count⟩
  · intro p address found w' run
    have nested := (follows {} p address rfl).wellNested hw run
    exact ⟨nested, nested.count⟩

def countingLoop : Graph :=
  let rax : Register := ⟨.listed 0, 0, 63⟩
  let next : MicroOp :=
    { pc := 0x10, kind := .alu, operation := .add, sources := [.register rax, .immediate 8],
      destinations := [.register rax] }
  let store : MicroOp :=
    { pc := 0x14, kind := .store, operation := .mov, sources := [.register rax],
      destinations := [.memory { base := some ⟨.listed 4, 0, 63⟩ }] }
  (({ loopTree := [0, 0] } : Graph).addBlock 0 1 [next, store]).addEdge 0 0 true

def counterAddress : Formula := .register ⟨0x10, 0⟩ ⟨.listed 4, 0, 63⟩

theorem calls_wellNested_countingLoop :
    let bases := OperandTable.setBase {} ⟨0x14, 0⟩ counterAddress
    let recorder := slicer (budgeted countingLoop true true) false bases
    (∃ w, (recorder.slice countingLoop 9 ⟨0, 1⟩ ⟨.listed 0, 0, 63⟩ {}).run { client := ⟨1, []⟩ } =
        .ok () w ∧ w.client.calls.length = 15 ∧ WellNested w.client.calls.reverse ∧
      ∀ counted k, w.client.calls.reverse.foldl (Call.count counted) k = k) ∧
    ∃ found w, (recorder.follow countingLoop 9 ⟨0, 0⟩ counterAddress).run { client := ⟨1, []⟩ } =
        .ok found w ∧ found = some ⟨.listed 0, 0, 63⟩ ∧ WellNested w.client.calls.reverse ∧
      ∀ counted k, w.client.calls.reverse.foldl (Call.count counted) k = k := by
  intro bases recorder
  obtain ⟨walks, follows⟩ := calls_wellNested (budgeted countingLoop true true) false bases
    countingLoop 9 (rfl : (⟨⟨1, []⟩, {}, []⟩ : Walk (Record Nat)).client.calls = [])
  constructor
  · obtain ⟨_, w, run, calls⟩ : ∃ a w,
        (recorder.slice countingLoop 9 ⟨0, 1⟩ ⟨.listed 0, 0, 63⟩ {}).run { client := ⟨1, []⟩ } =
          .ok a w ∧ w.client.calls.length = 15 := run_of_ends (by decide +kernel)
    exact ⟨w, run, calls, walks _ _ _ _ run⟩
  · obtain ⟨found, w, run, carrier⟩ : ∃ found w,
        (recorder.follow countingLoop 9 ⟨0, 0⟩ counterAddress).run { client := ⟨1, []⟩ } =
          .ok found w ∧ found = some ⟨.listed 0, 0, 63⟩ := run_of_ends (by decide +kernel)
    exact ⟨found, w, run, carrier, follows _ _ _ _ run⟩

end Recorder

end AddressFormulas

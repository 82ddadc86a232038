import AddressFormulas.Proofs.Routine.Reading

namespace AddressFormulas

namespace NotationError

def OfLine (n : Nat) : NotationError → Prop
  | unknownBlock _ _ => False
  | e => e.line = n

theorem OfLine.line_eq {n : Nat} {e : NotationError} (h : e.OfLine n) : e.line = n := by
  cases e
  case unknownBlock => exact h.elim
  all_goals exact h

theorem OfLine.ne_unknownBlock {n : Nat} {e : NotationError} (h : e.OfLine n) (m id : Nat) :
    e ≠ .unknownBlock m id := by
  rintro rfl
  exact h

end NotationError

namespace Notation

def Blames {α : Type} (n : Nat) (r : Except NotationError α) : Prop :=
  ∀ e, r = .error e → e.OfLine n

namespace Blames

variable {α β : Type} {n : Nat}

theorem ok (a : α) : Blames n (.ok a) := nofun

theorem error {e : NotationError} (he : e.OfLine n) : Blames (α := α) n (.error e) := by
  rintro e' ⟨⟩
  exact he

theorem bind {r : Except NotationError α} {f : α → Except NotationError β} (hr : Blames n r)
    (hf : ∀ a, Blames n (f a)) : Blames n (r >>= f) := by
  cases r with
  | ok a => exact hf a
  | error e => exact error (hr e rfl)

theorem map {r : Except NotationError α} (hr : Blames n r) (f : α → β) : Blames n (r.map f) := by
  cases r with
  | ok a => exact ok (f a)
  | error e => exact error (hr e rfl)

theorem mapM {f : α → Except NotationError β} (hf : ∀ a, Blames n (f a)) (as : List α) :
    Blames n (as.mapM f) := by
  induction as with
  | nil => exact ok []
  | cons a as ih =>
    rw [List.mapM_cons]
    exact (hf a).bind fun b => ih.bind fun bs => ok (b :: bs)

theorem foldlM {f : β → α → Except NotationError β} (hf : ∀ b a, Blames n (f b a)) (as : List α)
    (b : β) : Blames n (as.foldlM f b) := by
  induction as generalizing b with
  | nil => exact ok b
  | cons a as ih =>
    rw [List.foldlM_cons]
    exact (hf b a).bind ih

end Blames

section Readers

variable (n : Nat)

theorem readNumber_blames (text : String) : Blames n (readNumber n text) := by
  unfold readNumber
  split
  · exact .ok _
  · exact .error rfl

theorem readBetween_blames (low high : Int) (text : String) :
    Blames n (readBetween low high n text) := by
  refine (readNumber_blames n text).bind fun v => ?_
  split
  · exact .ok v
  · exact .error rfl

theorem readUpTo_blames (high : Int) (text : String) : Blames n (readUpTo high n text) :=
  (readBetween_blames n 0 high text).map _

theorem readRegister_blames (text : String) : Blames n (readRegister n text) := by
  unfold readRegister
  split
  · exact .ok _
  · exact .error rfl

theorem addPart_blames (text : String) (m : MemoryOperand) (part : List Char) :
    Blames n (addPart n text m part) := by
  unfold addPart
  split
  · exact (readNumber_blames n _).bind fun v => .ok _
  split
  · split
    · exact .error rfl
    · exact (readRegister_blames n _).bind fun r => (readNumber_blames n _).bind fun k => .ok _
  · split
    · exact (readRegister_blames n _).bind fun r => .ok _
    · split
      · exact .error rfl
      · exact (readRegister_blames n _).bind fun r => .ok _

theorem openMemory_blames (text : String) : Blames n (openMemory n text) := by
  unfold openMemory
  dsimp only
  split
  · refine (readBetween_blames n _ _ _).bind fun opidx => ?_
    refine .bind (.ok _) fun opened => ?_
    split
    · exact .ok _
    · exact .error rfl
  · split
    · refine .bind (.ok _) fun opened => ?_
      split
      · exact .ok _
      · exact .error rfl
    · exact .error rfl

theorem readMemory_blames (text : String) : Blames n (readMemory n text) :=
  (openMemory_blames n text).bind fun _ => .foldlM (addPart_blames n text) _ _

theorem readOperand_blames (text : String) : Blames n (readOperand n text) := by
  unfold readOperand
  split
  · exact (readNumber_blames n _).map _
  · exact (readMemory_blames n text).map _
  · split
    · exact .ok _
    · exact (readRegister_blames n text).map _
  · exact (readRegister_blames n text).map _

theorem readKeyword_blames {α : Type} (what : String) (meanings : List (String × α))
    (text : String) : Blames n (readKeyword what meanings n text) := by
  unfold readKeyword
  split
  · exact .ok _
  · exact .error rfl

theorem readWidth_blames (text : String) : Blames n (readWidth n text) := by
  refine (readUpTo_blames n 255 text).bind fun w => ?_
  split
  · exact .error rfl
  · exact .ok w

theorem addWord_blames (d : OpDraft) (word : String) : Blames n (addWord n d word) := by
  unfold addWord
  repeat' split
  · exact .ok _
  · exact .ok _
  · exact .ok _
  · exact (readUpTo_blames n _ _).bind fun target => .ok _
  · exact (readWidth_blames n _).bind fun width => .ok _
  · exact (readOperand_blames n word).bind fun operand => .ok _
  · exact (readOperand_blames n word).bind fun operand => .ok _

theorem readMicroOp_blames (words : List String) : Blames n (readMicroOp n words) := by
  unfold readMicroOp
  split
  · refine (readUpTo_blames n _ _).bind fun pc => (readUpTo_blames n _ _).bind fun length =>
      (readKeyword_blames n _ _ _).bind fun kind => (readKeyword_blames n _ _ _).bind fun op =>
      (Blames.foldlM (addWord_blames n) _ _).bind fun d => ?_
    split
    · exact .ok _
    · exact .error rfl
  · exact .error rfl

theorem readAttribute_blames {α : Type} (words : List String) (key : String) (default : α)
    {read : String → Except NotationError α} (hread : ∀ text, Blames n (read text)) :
    Blames n (readAttribute words key default read) := by
  unfold readAttribute
  split
  · exact hread _
  · exact .ok _

theorem readSurrogate_blames (words : List String) : Blames n (readSurrogate n words) := by
  unfold readSurrogate
  split
  · exact .ok _
  · exact (readUpTo_blames n _ _).bind fun target =>
      (readAttribute_blames n _ _ _ (readUpTo_blames n _)).bind fun place => .ok _

theorem readBlock_blames (words : List String) : Blames n (readBlock n words) := by
  unfold readBlock
  split
  · exact (readUpTo_blames n _ _).bind fun id =>
      (readAttribute_blames n _ _ _ (readBetween_blames n _ _)).bind fun rank =>
      (readAttribute_blames n _ _ _ (readUpTo_blames n _)).bind fun marker =>
      (readSurrogate_blames n _).bind fun surrogate => .ok _
  · exact .error rfl

theorem readLoops_blames (words : List String) (g : Graph) : Blames n (readLoops n words g) := by
  refine (Blames.mapM (readUpTo_blames n _) words).bind fun parents => ?_
  split
  · exact .ok _
  · exact .error rfl

theorem readEdge_blames (trimmed : List Char) (words : List String) :
    Blames n (readEdge n trimmed words) := by
  unfold readEdge
  split
  · exact (readUpTo_blames n _ _).bind fun source => (readUpTo_blames n _ _).bind fun sink => .ok _
  · exact .error rfl

end Readers

theorem wp_ofExcept {α : Type} {r : Except NotationError α} {d : Draft} {n : Nat} (hr : Blames n r) :
    wp (ofExcept r) (fun _ _ => True) (fun e _ => e.OfLine n) d := by
  cases r with
  | ok a => trivial
  | error e => exact hr e rfl

theorem readWords_blames (n : Nat) (trimmed : List Char) (words : List String) (d : Draft) :
    wp (readWords n trimmed words) (fun _ _ => True) (fun e _ => e.OfLine n) d := by
  unfold readWords
  simp only [wp_bind, wp_get]
  split
  · trivial
  · simp only [wp_bind]
    exact wp_imp (wp_ofExcept (readLoops_blames n _ _)) fun _ _ _ => trivial
  · simp only [wp_bind, wp_set]
    exact wp_imp (wp_ofExcept (readBlock_blames n _)) fun _ _ _ => trivial
  · simp only [wp_bind]
    exact wp_imp (wp_ofExcept (readEdge_blames n _ _)) fun _ _ _ => trivial
  · split
    · exact (wp_throw _).mpr rfl
    · simp only [wp_bind]
      exact wp_imp (wp_ofExcept (readMicroOp_blames n _)) fun _ _ _ => trivial

theorem readLine_blames (n : Nat) (raw : List Char) (d : Draft) :
    wp (readLine n raw) (fun _ _ => True) (fun e _ => e.OfLine n) d := by
  unfold readLine
  split
  · trivial
  · trivial
  · exact readWords_blames n _ _ d

theorem readLines_append (n : Nat) (xs ys : List (List Char)) :
    readLines n (xs ++ ys) = readLines n xs >>= fun _ => readLines (n + xs.length) ys := by
  induction xs generalizing n with
  | nil => rfl
  | cons x xs ih =>
    have next : n + (x :: xs).length = n + 1 + xs.length := Nat.add_right_comm n xs.length 1
    rw [List.cons_append, readLines, readLines, ih, next, bind_assoc]

theorem readLines_stops {n : Nat} {raws : List (List Char)} {d d' : Draft} {e : NotationError}
    (h : (readLines n raws).run d = .error e d') :
    ∃ before raw after d₁, raws = before ++ raw :: after ∧
      (readLines n before).run d = .ok () d₁ ∧
      (readLine (n + before.length) raw).run d₁ = .error e d' := by
  induction raws generalizing n d with
  | nil => cases h
  | cons raw rest ih =>
    cases hr : (readLine n raw).run d with
    | error e' d₁ =>
      rw [readLines, EStateM.run_bind, hr] at h
      cases h
      exact ⟨[], raw, rest, d, rfl, rfl, hr⟩
    | ok _ d₁ =>
      rw [readLines, EStateM.run_bind, hr] at h
      obtain ⟨before, bad, after, d₂, rfl, hbefore, hbad⟩ := ih h
      refine ⟨raw :: before, bad, after, d₂, rfl, ?_, ?_⟩
      · rw [readLines, EStateM.run_bind, hr]
        exact hbefore
      · have next : n + (raw :: before).length = n + 1 + before.length :=
          Nat.add_right_comm n before.length 1
        rw [next]
        exact hbad

end Notation

end AddressFormulas

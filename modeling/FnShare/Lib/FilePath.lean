import FnShare.Lib.Bytes

/-!
# Lexical paths

`path/filepath` of Go on Unix. `clean` works on the elements of a path between slashes, kept as a
stack: an empty element or `.` is dropped, `..` takes back the element before it, and a `..` that
has nothing to take back stays, or goes at the root. `join` puts its arguments together with
slashes and cleans the result.

The stacks that cleaning produces are those of `Stack`: some `..`, below the root of a relative
path only, and normal elements over them. The path of such a stack cleans to itself, so a clean
path extends by normal elements as a string does (`join_render`).
-/

namespace FnShare.FilePath

/-- The byte `/`. -/
def slash : UInt8 := 47

/-- The element `.`. -/
def dot : Bytes := [46]

/-- The element `..`. -/
def dotdot : Bytes := [46, 46]

/-- The stack after one element. -/
def cleanStep (rooted : Bool) (st : List Bytes) (c : Bytes) : List Bytes :=
  if c = [] ∨ c = dot then st
  else if c = dotdot then
    match st with
    | top :: rest => if top = dotdot then dotdot :: st else rest
    | [] => if rooted then [] else [dotdot]
  else c :: st

/-- Whether a path starts at the root. -/
def isRooted (p : Bytes) : Bool := p.head? == some slash

/-- The stack of a path, newest element first. -/
def stackOf (p : Bytes) : List Bytes := (p.splitOn slash).foldl (cleanStep (isRooted p)) []

/-- The path of a list of elements. -/
def render (rooted : Bool) (cs : List Bytes) : Bytes :=
  (if rooted then [slash] else []) ++ [slash].intercalate cs

/-- `filepath.Clean`. -/
def clean (p : Bytes) : Bytes :=
  let out := render (isRooted p) (stackOf p).reverse
  if out = [] then dot else out

/-- `filepath.Join`: the elements from the first one that is not empty, with slashes between. -/
def join (elems : List Bytes) : Bytes :=
  match elems.dropWhile (· = []) with
  | [] => []
  | es => clean ([slash].intercalate es)

/-- An element that cleaning keeps whatever stands before it. -/
structure Normal (c : Bytes) : Prop where
  ne_nil : c ≠ []
  ne_dot : c ≠ dot
  ne_dotdot : c ≠ dotdot
  no_slash : slash ∉ c

/-- The stacks of clean paths. -/
inductive Stack (rooted : Bool) : List Bytes → Prop
  | nil : Stack rooted []
  | up {st : List Bytes} (hr : rooted = false) (hst : ∀ c ∈ st.head?, c = dotdot)
      (h : Stack rooted st) : Stack rooted (dotdot :: st)
  | push {st : List Bytes} {c : Bytes} (hc : Normal c) (h : Stack rooted st) : Stack rooted (c :: st)

/-- A normal element is pushed. -/
theorem cleanStep_normal {c : Bytes} (hc : Normal c) (r : Bool) (st : List Bytes) :
    cleanStep r st c = c :: st := by
  simp [cleanStep, hc.ne_nil, hc.ne_dot, hc.ne_dotdot]

/-- An element without a slash leads from a stack to a stack. -/
theorem Stack.cleanStep {r : Bool} {st : List Bytes} (h : Stack r st) {c : Bytes}
    (hc : slash ∉ c) : Stack r (FilePath.cleanStep r st c) := by
  by_cases h1 : c = [] ∨ c = dot
  · simpa [FilePath.cleanStep, h1] using h
  · by_cases h2 : c = dotdot
    · subst h2
      cases h with
      | nil =>
        cases r with
        | true => exact .nil
        | false => exact .up rfl (by simp) .nil
      | up hr hst h => exact .up hr (by simp) (.up hr hst h)
      | push hn h => simpa [FilePath.cleanStep, h1, hn.ne_dotdot] using h
    · have hn : Normal c := ⟨fun h => h1 (.inl h), fun h => h1 (.inr h), h2, hc⟩
      rw [cleanStep_normal hn]
      exact .push hn h

/-- The elements of a path have no slash. -/
theorem slash_not_mem_splitOn {p c : Bytes} (h : c ∈ p.splitOn slash) : slash ∉ c := by
  induction p generalizing c with
  | nil =>
    simp at h
    simp [h]
  | cons b bs ih =>
    rw [List.splitOn_cons_eq_if_modifyHead] at h
    split_ifs at h with hb
    · rcases List.mem_cons.mp h with rfl | h
      · simp
      · exact ih h
    · cases hs : bs.splitOn slash with
      | nil => exact absurd hs (List.splitOn_ne_nil _ _)
      | cons x xs =>
        rw [hs, List.modifyHead_cons] at h
        rcases List.mem_cons.mp h with rfl | h
        · have hx := ih (hs ▸ List.mem_cons_self)
          simp only [List.mem_cons, not_or]
          exact ⟨fun e => hb (by simp [e]), hx⟩
        · exact ih (hs ▸ List.mem_cons_of_mem _ h)

/-- A path with more elements than one before a slash splits there. -/
theorem splitOn_append (p q : Bytes) :
    (p ++ slash :: q).splitOn slash = p.splitOn slash ++ q.splitOn slash := by
  induction p with
  | nil => simp [List.splitOn_cons_eq_if_modifyHead]
  | cons b bs ih =>
    rw [List.cons_append, List.splitOn_cons_eq_if_modifyHead, List.splitOn_cons_eq_if_modifyHead,
      ih]
    split_ifs with hb
    · simp
    · cases hs : bs.splitOn slash with
      | nil => exact absurd hs (List.splitOn_ne_nil _ _)
      | cons x xs => simp

/-- An element without a slash is a path of one element. -/
theorem splitOn_of_no_slash {c : Bytes} (h : slash ∉ c) : c.splitOn slash = [c] := by
  have : List.splitOn slash ([slash].intercalate [c]) = [c] :=
    List.splitOn_intercalate slash (by simpa using h) (by simp)
  simpa using this

/-- Folding over elements without a slash leads from a stack to a stack. -/
theorem Stack.foldl {r : Bool} {st : List Bytes} (h : Stack r st) :
    ∀ {cs : List Bytes}, (∀ c ∈ cs, slash ∉ c) → Stack r (cs.foldl (FilePath.cleanStep r) st)
  | [], _ => h
  | c :: cs, hcs =>
    Stack.foldl (h.cleanStep (hcs c (by simp))) fun d hd => hcs d (List.mem_cons_of_mem _ hd)

/-- Cleaning produces a stack. -/
theorem stack_stackOf (p : Bytes) : Stack (isRooted p) (stackOf p) :=
  Stack.nil.foldl fun _ => slash_not_mem_splitOn

/-- The elements of a stack have no slash, and none is empty. -/
theorem Stack.mem {r : Bool} {st : List Bytes} (h : Stack r st) {c : Bytes} (hc : c ∈ st) :
    slash ∉ c ∧ c ≠ [] := by
  induction h with
  | nil => simp at hc
  | up _ _ _ ih =>
    rcases List.mem_cons.mp hc with rfl | hc
    · decide
    · exact ih hc
  | push hn _ ih =>
    rcases List.mem_cons.mp hc with rfl | hc
    · exact ⟨hn.no_slash, hn.ne_nil⟩
    · exact ih hc

/-- A stack is what cleaning its own elements gives. -/
theorem Stack.foldl_reverse {r : Bool} {st : List Bytes} (h : Stack r st) :
    st.reverse.foldl (FilePath.cleanStep r) [] = st := by
  induction h with
  | nil => rfl
  | @up st hr hst _ ih =>
    rw [List.reverse_cons, List.foldl_append, ih, List.foldl_cons, List.foldl_nil]
    cases st with
    | nil => simp [FilePath.cleanStep, hr, dotdot, dot]
    | cons c st =>
      have := hst c (by simp)
      simp [FilePath.cleanStep, this, dotdot, dot]
  | push hn _ ih =>
    rw [List.reverse_cons, List.foldl_append, ih, List.foldl_cons, List.foldl_nil,
      cleanStep_normal hn]

section Render

variable {r : Bool} {st : List Bytes}

/-- The elements of the path of a stack. -/
theorem Stack.splitOn_render (h : Stack r st) (hne : st ≠ []) :
    (render r st.reverse).splitOn slash = (if r then [[]] else []) ++ st.reverse := by
  have hsplit : ([slash].intercalate st.reverse).splitOn slash = st.reverse :=
    List.splitOn_intercalate slash (fun l hl => (h.mem (List.mem_reverse.mp hl)).1)
      (by simpa using hne)
  cases r with
  | false => simpa [render] using hsplit
  | true =>
    have := splitOn_append [] ([slash].intercalate st.reverse)
    rw [hsplit] at this
    simpa [render] using this

/-- The path of a stack starts at the root when the stack does. -/
theorem Stack.isRooted_render (h : Stack r st) (hne : st ≠ []) (q : Bytes) :
    isRooted (render r st.reverse ++ q) = r := by
  cases r with
  | true => simp [render, isRooted]
  | false =>
    cases hs : st.reverse with
    | nil => exact absurd (by simpa using hs) hne
    | cons c cs =>
      obtain ⟨hns, hnil⟩ := h.mem (List.mem_reverse.mp (hs ▸ List.mem_cons_self : c ∈ st.reverse))
      cases c with
      | nil => exact absurd rfl hnil
      | cons b bs =>
        have hb : b ≠ slash := fun e => hns (by simp [e])
        simp [render, isRooted, hb]

/-- The path of a stack is not empty. -/
theorem Stack.render_ne_nil (h : Stack r st) (hne : st ≠ []) : render r st.reverse ≠ [] := by
  intro e
  have := h.splitOn_render hne
  rw [e] at this
  cases r with
  | true =>
    simp at this
    exact hne this
  | false =>
    simp only [List.splitOn_nil, Bool.false_eq_true, if_false, List.nil_append] at this
    have hmem : ([] : Bytes) ∈ st := List.mem_reverse.mp (this ▸ List.mem_cons_self)
    exact (h.mem hmem).2 rfl

/-- The stack of a path that continues the path of a stack. -/
theorem Stack.stackOf_render_append (h : Stack r st) (hne : st ≠ []) (q : Bytes) :
    stackOf (render r st.reverse ++ slash :: q) = (q.splitOn slash).foldl (FilePath.cleanStep r) st
    := by
  unfold stackOf
  rw [h.isRooted_render hne, splitOn_append, h.splitOn_render hne, List.foldl_append]
  congr 1
  cases r with
  | false => simpa using h.foldl_reverse
  | true => simpa [FilePath.cleanStep] using h.foldl_reverse

end Render

/-- One element more at the end of a path. -/
theorem render_append_singleton (r : Bool) {cs : List Bytes} (hne : cs ≠ []) (c : Bytes) :
    render r (cs ++ [c]) = render r cs ++ slash :: c := by
  unfold render
  induction cs with
  | nil => exact absurd rfl hne
  | cons d ds ih =>
    cases ds with
    | nil => simp
    | cons e es =>
      have := ih (by simp)
      simp only [List.append_assoc, List.append_cancel_left_eq] at this
      simp only [List.cons_append, List.intercalate_cons_cons, List.append_assoc] at this ⊢
      rw [this]

/-- Joining a normal element to any directory pushes it on the directory's stack. -/
theorem join_normal (d : Bytes) {c : Bytes} (hc : Normal c) :
    join [d, c] = render (isRooted d) (c :: stackOf d).reverse := by
  have hrender : render (isRooted d) (c :: stackOf d).reverse ≠ [] :=
    (Stack.push hc (stack_stackOf d)).render_ne_nil (by simp)
  unfold join
  by_cases hd : d = []
  · subst hd
    have hr : isRooted c = false := by
      cases c with
      | nil => exact absurd rfl hc.ne_nil
      | cons b bs =>
        have hb : b ≠ slash := fun e => hc.no_slash (by simp [e])
        simp [isRooted, hb]
    have hs : stackOf c = [c] := by
      simp [stackOf, splitOn_of_no_slash hc.no_slash, cleanStep_normal hc]
    have h0 : isRooted [] = false := rfl
    have h1 : stackOf [] = [] := rfl
    rw [h0, h1] at hrender ⊢
    simp only [List.dropWhile_cons, decide_true, if_true, hc.ne_nil, decide_false,
      Bool.false_eq_true, if_false, List.intercalate_singleton, clean, hr, hs]
    rw [if_neg hrender]
  · have hroot : isRooted (d ++ slash :: c) = isRooted d := by
      cases d with
      | nil => exact absurd rfl hd
      | cons b bs => simp [isRooted]
    have hs : stackOf (d ++ slash :: c) = c :: stackOf d := by
      unfold stackOf
      rw [hroot, splitOn_append, List.foldl_append, splitOn_of_no_slash hc.no_slash,
        List.foldl_cons, List.foldl_nil, cleanStep_normal hc]
    simp only [List.dropWhile_cons, hd, decide_false, Bool.false_eq_true, if_false,
      List.intercalate_cons_cons, List.intercalate_singleton, List.append_assoc,
      List.singleton_append, clean, hroot, hs]
    rw [if_neg hrender]

/-- Normal elements joined to a clean path follow it after slashes. -/
theorem join_render {r : Bool} {st : List Bytes} (h : Stack r st) (hne : st ≠ []) {a b : Bytes}
    (ha : Normal a) (hb : Normal b) :
    join [render r st.reverse, a, b] = render r st.reverse ++ slash :: (a ++ slash :: b) := by
  have hs : stackOf (render r st.reverse ++ slash :: (a ++ slash :: b)) = b :: a :: st := by
    rw [h.stackOf_render_append hne, splitOn_append, splitOn_of_no_slash ha.no_slash,
      splitOn_of_no_slash hb.no_slash]
    simp [cleanStep_normal ha, cleanStep_normal hb]
  have hout : render r (b :: a :: st).reverse = render r st.reverse ++ slash :: (a ++ slash :: b)
      := by
    rw [List.reverse_cons, render_append_singleton r (by simp), List.reverse_cons,
      render_append_singleton r (by simpa using hne)]
    simp
  unfold join
  simp only [List.dropWhile_cons, h.render_ne_nil hne, decide_false, Bool.false_eq_true, if_false,
    List.intercalate_cons_cons, List.intercalate_singleton, List.append_assoc,
    List.singleton_append, clean, h.isRooted_render hne, hs, hout]
  rw [if_neg (by simp)]

end FnShare.FilePath

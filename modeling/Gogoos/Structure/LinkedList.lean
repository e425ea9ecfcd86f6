import Gogoos.Structure.Links
import Gogoos.Logic.Run

/-!
# Intrusive lists

`lib/structure/list.c`. The memory holds a `ListElem` at each address, and a `List` at `list` has
its head there and its tail eight bytes behind. An initialised list stands for the sequence of the
elements between the two; the operations act on the sequences.
-/

namespace Gogoos.IntrusiveList

section Programs

/-- A pointer. -/
abbrev Addr : Type := BitVec 32

/-- `NULL`. -/
def null : Addr := 0

structure ListElem where
  prev : Addr
  next : Addr

structure Memory where
  elems : Addr → ListElem
  /-- The interrupt status. -/
  intr : Bool

variable (s : Memory) (list before elem x y v : Addr)

/-- `x->next`. -/
def Memory.next : Addr := (s.elems x).next

/-- `x->prev`. -/
def Memory.prev : Addr := (s.elems x).prev

def Memory.setNext : Memory :=
  { s with elems := fun y => if y = x then { s.elems y with next := v } else s.elems y }

def Memory.setPrev : Memory :=
  { s with elems := fun y => if y = x then { s.elems y with prev := v } else s.elems y }

def Memory.setIntr (status : Bool) : Memory := { s with intr := status }

/-- `&list->head`. -/
def head : Addr := list

/-- `&list->tail`. -/
def tail : Addr := list + 8

def listInit : Memory :=
  (((s.setPrev (head list) null).setNext (head list) (tail list)).setPrev (tail list)
    (head list)).setNext (tail list) null

def listInsertBefore : Memory :=
  let status := s.intr
  let s := s.setIntr false
  let s := s.setNext (s.prev before) elem
  let s := s.setPrev elem (s.prev before)
  let s := s.setNext elem before
  let s := s.setPrev before elem
  s.setIntr status

def listPush : Memory := listInsertBefore s (s.next (head list)) elem

def listAppend : Memory := listInsertBefore s (tail list) elem

def listRemove : Memory :=
  let status := s.intr
  let s := s.setIntr false
  let s := s.setNext (s.prev elem) (s.next elem)
  let s := s.setPrev (s.next elem) (s.prev elem)
  s.setIntr status

def listPop : Addr × Memory :=
  if s.next (head list) = tail list then (null, s)
  else (s.next (head list), listRemove s (s.next (head list)))

/-- The first element from `elem` on that passes the test, `none` when the rounds do not suffice. -/
def searchLoop (test : Addr → Bool) (tail : Addr) : (fuel : ℕ) → (elem : Addr) → Option (Option Addr)
  | 0, _ => none
  | fuel + 1, elem =>
    if elem = tail then some none
    else if test elem then some (some elem)
    else searchLoop test tail fuel (s.next elem)

def listElemExist (fuel : ℕ) : Option Bool :=
  (searchLoop s (fun e => e = elem) (tail list) fuel (s.next (head list))).map Option.isSome

def listIsEmpty : Bool := s.next (head list) = tail list

/-- The count is an `uint32`. -/
def lenLoop (tail : Addr) : (fuel : ℕ) → (elem : Addr) → (length : ℕ) → Option ℕ
  | 0, _, _ => none
  | fuel + 1, elem, length =>
    if elem = tail then some length
    else lenLoop tail fuel (s.next elem) ((length + 1) % 2 ^ 32)

def listLen (fuel : ℕ) : Option ℕ := lenLoop s (tail list) fuel (s.next (head list)) 0

def listTraversal (fuel : ℕ) (func : Addr → ℤ → Bool) (arg : ℤ) : Option Addr :=
  if listIsEmpty s list then some null
  else (searchLoop s (fun e => func e arg) (tail list) fuel (s.next (head list))).map
    fun r => r.getD null

end Programs

section Sequences

/-- The initialised lists, and the sequence of each. -/
structure Sequences where
  lists : List Addr
  seq : Addr → List Addr

/-- The places of a list, with head and tail. -/
def chain (list : Addr) (xs : List Addr) : List Addr := head list :: (xs ++ [tail list])

variable (a : Sequences)

/-- Neither linked nor part of a list. -/
def Sequences.Fresh (x : Addr) : Prop := ∀ list ∈ a.lists, x ∉ chain list (a.seq list)

instance (x : Addr) : Decidable (a.Fresh x) :=
  List.decidableBAll (fun list => x ∉ chain list (a.seq list)) a.lists

def Sequences.set (list : Addr) (xs : List Addr) : Sequences :=
  { a with seq := Function.update a.seq list xs }

/-- `x` before the first `b`. -/
def insertIn (b x : Addr) : List Addr → List Addr
  | [] => []
  | y :: l => if y = b then x :: y :: l else y :: insertIn b x l

inductive Op where
  | init (list : Addr)
  | push (list elem : Addr)
  | append (list elem : Addr)
  /-- `list` is the one that `before` is linked in. -/
  | insertBefore (list before elem : Addr)
  | pop (list : Addr)
  /-- `list` is the one that `elem` is linked in. -/
  | remove (list elem : Addr)

def Op.run (s : Memory) : Op → Memory
  | .init list => listInit s list
  | .push list elem => listPush s list elem
  | .append list elem => listAppend s list elem
  | .insertBefore _ before elem => listInsertBefore s before elem
  | .pop list => (listPop s list).2
  | .remove _ elem => listRemove s elem

/-- What an operation does to the sequences. -/
def Op.act : Op → Sequences
  | .init list => ⟨list :: a.lists, Function.update a.seq list []⟩
  | .push list elem => a.set list (elem :: a.seq list)
  | .append list elem => a.set list (a.seq list ++ [elem])
  | .insertBefore list before elem => a.set list (insertIn before elem (a.seq list))
  | .pop list => a.set list (a.seq list).tail
  | .remove list elem => a.set list ((a.seq list).erase elem)

/-- A list is initialised in memory that is not in use, only fresh elements are linked in, and only
linked ones are taken out. -/
def Op.Legal : Op → Prop
  | .init list => a.Fresh (head list) ∧ a.Fresh (tail list)
  | .push list elem => list ∈ a.lists ∧ a.Fresh elem
  | .append list elem => list ∈ a.lists ∧ a.Fresh elem
  | .insertBefore list before elem => list ∈ a.lists ∧ before ∈ a.seq list ∧ a.Fresh elem
  | .pop list => list ∈ a.lists
  | .remove list elem => list ∈ a.lists ∧ elem ∈ a.seq list

/-- The memory and the sequences after an operation. -/
inductive Step : Memory × Sequences → Memory × Sequences → Prop
  | op {s : Memory} {a : Sequences} (op : Op) : op.Legal a → Step (s, a) (op.run s, op.act a)

/-- Each list stands for its sequence, and no place belongs to two lists. -/
structure Represents (s : Memory) (a : Sequences) : Prop where
  linked : ∀ list ∈ a.lists, Linked s.next s.prev (chain list (a.seq list))
  nodup : ∀ list ∈ a.lists, (chain list (a.seq list)).Nodup
  apart : ∀ list ∈ a.lists, ∀ list' ∈ a.lists, list ≠ list' →
    ∀ y ∈ chain list (a.seq list), y ∉ chain list' (a.seq list')
  ends : ∀ list ∈ a.lists, s.prev (head list) = null ∧ s.next (tail list) = null

/-- What the queries return. -/
structure Answers (s : Memory) (a : Sequences) : Prop where
  exist : ∀ list ∈ a.lists, ∀ elem, ∀ fuel > (a.seq list).length,
    listElemExist s list elem fuel = some (decide (elem ∈ a.seq list))
  len : ∀ list ∈ a.lists, ∀ fuel > (a.seq list).length,
    listLen s list fuel = some (a.seq list).length
  isEmpty : ∀ list ∈ a.lists, listIsEmpty s list = decide (a.seq list = [])
  traversal : ∀ list ∈ a.lists, ∀ func arg, ∀ fuel > (a.seq list).length,
    listTraversal s list fuel func arg =
      some (((a.seq list).find? fun e => func e arg).getD null)
  pop : ∀ list ∈ a.lists, (listPop s list).1 = (a.seq list).headD null

end Sequences

section Effects

variable {s : Memory} {before elem list y : Addr}

theorem next_insertBefore : (listInsertBefore s before elem).next y =
    if y = elem then before else if y = s.prev before then elem else s.next y := by
  unfold listInsertBefore Memory.next Memory.prev Memory.setNext Memory.setPrev Memory.setIntr
  dsimp only
  split_ifs <;> rfl

theorem prev_insertBefore : (listInsertBefore s before elem).prev y =
    if y = before then elem else if y = elem then s.prev before else s.prev y := by
  unfold listInsertBefore Memory.prev Memory.setNext Memory.setPrev Memory.setIntr
  dsimp only
  split_ifs <;> rfl

theorem next_remove : (listRemove s elem).next y =
    if y = s.prev elem then s.next elem else s.next y := by
  unfold listRemove Memory.next Memory.prev Memory.setNext Memory.setPrev Memory.setIntr
  dsimp only
  split_ifs <;> rfl

theorem prev_remove (h : elem ≠ s.prev elem) : (listRemove s elem).prev y =
    if y = s.next elem then s.prev elem else s.prev y := by
  unfold Memory.prev at h
  unfold listRemove Memory.next Memory.prev Memory.setNext Memory.setPrev Memory.setIntr
  dsimp only
  simp only [if_neg h]
  split_ifs <;> rfl

theorem next_init : (listInit s list).next y =
    if y = tail list then null else if y = head list then tail list else s.next y := by
  unfold listInit Memory.next Memory.setNext Memory.setPrev
  dsimp only
  split_ifs <;> rfl

theorem prev_init : (listInit s list).prev y =
    if y = tail list then head list else if y = head list then null else s.prev y := by
  unfold listInit Memory.prev Memory.setNext Memory.setPrev
  dsimp only
  split_ifs <;> rfl

theorem head_ne_tail : head list ≠ tail list := by
  unfold head tail
  bv_omega

end Effects

section Changes

variable {s s' : Memory} {a : Sequences} {list x b c : Addr} {xs l₁ l₂ w : List Addr}

theorem set_seq : (a.set list xs).seq list = xs := Function.update_self _ _ _

theorem set_seq_ne {list' : Addr} (h : list' ≠ list) : (a.set list xs).seq list' = a.seq list' :=
  Function.update_of_ne h _ _

theorem head_mem : head list ∈ chain list xs := List.mem_cons_self

theorem tail_mem : tail list ∈ chain list xs :=
  List.mem_cons_of_mem _ (List.mem_append_right _ (List.mem_singleton_self _))

/-- An operation on one list, with the elements it had and fresh ones. -/
theorem Represents.change (h : Represents s a) (hlist : list ∈ a.lists)
    (hsub : ∀ y ∈ chain list xs, y ∈ chain list (a.seq list) ∨ a.Fresh y)
    (hlinked : Linked s'.next s'.prev (chain list xs)) (hnd : (chain list xs).Nodup)
    (hends : s'.prev (head list) = null ∧ s'.next (tail list) = null)
    (hframe : ∀ y, y ∉ chain list (a.seq list) → ¬ a.Fresh y →
      s'.next y = s.next y ∧ s'.prev y = s.prev y) : Represents s' (a.set list xs) := by
  have hkeep : ∀ list' ∈ a.lists, list' ≠ list → ∀ y ∈ chain list' (a.seq list'),
      s'.next y = s.next y ∧ s'.prev y = s.prev y :=
    fun list' hl hne y hy => hframe y (h.apart list' hl list hlist hne y hy) fun hf => hf list' hl hy
  have hother : ∀ list' ∈ a.lists, list' ≠ list → ∀ y ∈ chain list xs,
      y ∉ chain list' (a.seq list') := by
    intro list' hl hne y hy hy'
    rcases hsub y hy with hold | hfresh
    · exact h.apart list hlist list' hl hne.symm y hold hy'
    · exact hfresh list' hl hy'
  constructor
  · intro list' hl
    by_cases hne : list' = list
    · rw [hne, set_seq]
      exact hlinked
    · rw [set_seq_ne hne]
      exact (h.linked list' hl).frame (fun y hy => (hkeep list' hl hne y hy).1)
        fun y hy => (hkeep list' hl hne y hy).2
  · intro list' hl
    by_cases hne : list' = list
    · rw [hne, set_seq]
      exact hnd
    · rw [set_seq_ne hne]
      exact h.nodup list' hl
  · intro m hm m' hm' hne y hy
    by_cases hml : m = list
    · have hm'l : m' ≠ list := fun heq => hne (hml.trans heq.symm)
      rw [hml, set_seq] at hy
      rw [set_seq_ne hm'l]
      exact hother m' hm' hm'l y hy
    · rw [set_seq_ne hml] at hy
      by_cases hm'l : m' = list
      · rw [hm'l, set_seq]
        exact fun hy' => hother m hm hml y hy' hy
      · rw [set_seq_ne hm'l]
        exact h.apart m hm m' hm' hne y hy
  · intro list' hl
    by_cases hne : list' = list
    · rw [hne]
      exact hends
    · rw [(hkeep list' hl hne _ head_mem).2, (hkeep list' hl hne _ tail_mem).1]
      exact h.ends list' hl

/-- Head and tail are at the two ends. -/
theorem chain_eq (hw : w ≠ []) (h : chain list xs = w ++ b :: l₂) :
    head list ∈ w ∧ tail list ∈ b :: l₂ := by
  constructor
  · cases w with
    | nil => exact absurd rfl hw
    | cons c w =>
      rw [chain, List.cons_append, List.cons.injEq] at h
      exact h.1 ▸ List.mem_cons_self
  · have hlast : (chain list xs).getLast? = some (tail list) := by
      unfold chain
      rw [← List.cons_append, List.getLast?_concat]
    rw [h, List.getLast?_append_of_ne_nil _ (List.cons_ne_nil _ _)] at hlast
    exact List.mem_of_getLast? hlast

theorem perm_between : (l₁ ++ c :: x :: b :: l₂).Perm (x :: (l₁ ++ c :: b :: l₂)) := by
  have hmid : ((l₁ ++ [c]) ++ x :: b :: l₂).Perm (x :: ((l₁ ++ [c]) ++ b :: l₂)) := List.perm_middle
  rwa [List.append_assoc, List.append_assoc, List.singleton_append, List.singleton_append] at hmid

theorem Represents.insert (h : Represents s a) (hlist : list ∈ a.lists) (hx : a.Fresh x)
    (hw : w ≠ []) (hold : chain list (a.seq list) = w ++ b :: l₂)
    (hnew : chain list xs = w ++ x :: b :: l₂) :
    Represents (listInsertBefore s b x) (a.set list xs) := by
  obtain ⟨l₁, c, hwc, hsplit⟩ := append_cons_eq hw b l₂
  have hnd := h.nodup list hlist
  have hlinked := h.linked list hlist
  have hxold := hx list hlist
  obtain ⟨hhead, htail⟩ := chain_eq hw hold
  obtain ⟨hprev, hnext⟩ := h.ends list hlist
  rw [hold, hsplit] at hnd hlinked hxold
  obtain ⟨hcl, hbl, hcb, hcr, hbr⟩ := nodup_split hnd
  have hc : s.prev b = c := hlinked.prev_eq
  have hxb : x ≠ b := by
    rintro rfl
    exact hxold (List.mem_append_right _ (List.mem_cons_of_mem _ List.mem_cons_self))
  have hxc : x ≠ c := by
    rintro rfl
    exact hxold (List.mem_append_right _ List.mem_cons_self)
  have hbw : b ∉ w := by
    rw [hwc]
    intro hb
    rcases List.mem_append.mp hb with hb | hb
    · exact hbl hb
    · exact hcb (List.mem_singleton.mp hb).symm
  have hctail : c ∉ b :: l₂ := by
    intro hb
    rcases List.mem_cons.mp hb with hb | hb
    · exact hcb hb
    · exact hcr hb
  have hnew' : chain list xs = l₁ ++ c :: x :: b :: l₂ := by
    rw [hnew, hwc, List.append_assoc, List.singleton_append]
  apply h.change hlist
  · intro y hy
    rw [hnew'] at hy
    rw [hold, hsplit]
    by_cases hyx : y = x
    · exact .inr (hyx ▸ hx)
    · left
      simp only [List.mem_append, List.mem_cons, hyx, false_or] at hy ⊢
      exact hy
  · rw [hnew']
    apply hlinked.insert hnd hxold
    · rw [next_insertBefore, if_neg hxc.symm, if_pos hc.symm]
    · rw [prev_insertBefore, if_neg hxb, if_pos rfl, hc]
    · rw [next_insertBefore, if_pos rfl]
    · rw [prev_insertBefore, if_pos rfl]
    · intro y hyc hyx
      rw [next_insertBefore, if_neg hyx, hc, if_neg hyc]
    · intro y hyb hyx
      rw [prev_insertBefore, if_neg hyb, if_neg hyx]
  · rw [hnew']
    exact perm_between.nodup_iff.mpr (List.nodup_cons.mpr ⟨hxold, hnd⟩)
  · constructor
    · have hhb : head list ≠ b := fun heq => hbw (heq ▸ hhead)
      have hhx : head list ≠ x := fun heq => hx list hlist (heq ▸ head_mem)
      rw [prev_insertBefore, if_neg hhb, if_neg hhx]
      exact hprev
    · have htx : tail list ≠ x := fun heq => hx list hlist (heq ▸ tail_mem)
      have htc : tail list ≠ c := fun heq => hctail (heq ▸ htail)
      rw [next_insertBefore, if_neg htx, hc, if_neg htc]
      exact hnext
  · intro y hy hyf
    rw [hold, hsplit] at hy
    have hyx : y ≠ x := fun heq => hyf (heq ▸ hx)
    have hyb : y ≠ b := by
      rintro rfl
      exact hy (List.mem_append_right _ (List.mem_cons_of_mem _ List.mem_cons_self))
    have hyc : y ≠ c := by
      rintro rfl
      exact hy (List.mem_append_right _ List.mem_cons_self)
    rw [next_insertBefore, prev_insertBefore, if_neg hyx, hc, if_neg hyc, if_neg hyb, if_neg hyx]
    exact ⟨rfl, rfl⟩

theorem Represents.remove (h : Represents s a) (hlist : list ∈ a.lists)
    (hold : chain list (a.seq list) = l₁ ++ c :: x :: b :: l₂)
    (hnew : chain list xs = l₁ ++ c :: b :: l₂) :
    Represents (listRemove s x) (a.set list xs) := by
  have hnd := h.nodup list hlist
  have hlinked := h.linked list hlist
  obtain ⟨hprev, hnext⟩ := h.ends list hlist
  have hhead : head list ∈ l₁ ++ [c] := by
    have hsplit : chain list (a.seq list) = (l₁ ++ [c]) ++ x :: b :: l₂ := by
      rw [hold, List.append_assoc, List.singleton_append]
    exact (chain_eq (List.append_ne_nil_of_right_ne_nil _ (List.cons_ne_nil _ _)) hsplit).1
  have htail : tail list ∈ b :: l₂ := by
    have hsplit : chain list xs = (l₁ ++ [c]) ++ b :: l₂ := by
      rw [hnew, List.append_assoc, List.singleton_append]
    exact (chain_eq (List.append_ne_nil_of_right_ne_nil _ (List.cons_ne_nil _ _)) hsplit).2
  rw [hold] at hnd hlinked
  have hperm : (l₁ ++ c :: x :: b :: l₂).Perm (x :: (l₁ ++ c :: b :: l₂)) := perm_between
  obtain ⟨hxnew, hndnew⟩ := List.nodup_cons.mp (hperm.nodup_iff.mp hnd)
  obtain ⟨hcl, hbl, hcb, hcr, hbr⟩ := nodup_split hndnew
  have hc : s.prev x = c := hlinked.prev_eq
  have hb : s.next x = b := by
    have hlinked' : Linked s.next s.prev ((l₁ ++ [c]) ++ x :: b :: l₂) := by
      rwa [List.append_assoc, List.singleton_append]
    exact hlinked'.next_eq
  have hxc : x ≠ c := by
    rintro rfl
    exact hxnew (List.mem_append_right _ List.mem_cons_self)
  have hprev' : ∀ y, (listRemove s x).prev y = if y = b then c else s.prev y := by
    intro y
    rw [prev_remove (by rw [hc]; exact hxc), hb, hc]
  have hnext' : ∀ y, (listRemove s x).next y = if y = c then b else s.next y := by
    intro y
    rw [next_remove, hb, hc]
  apply h.change hlist
  · intro y hy
    left
    rw [hold]
    rw [hnew] at hy
    exact hperm.mem_iff.mpr (List.mem_cons_of_mem _ hy)
  · rw [hnew]
    apply hlinked.remove hndnew
    · rw [hnext', if_pos rfl]
    · rw [hprev', if_pos rfl]
    · exact fun y hy => by rw [hnext', if_neg hy]
    · exact fun y hy => by rw [hprev', if_neg hy]
  · rw [hnew]
    exact hndnew
  · constructor
    · rw [hprev', if_neg ?_]
      · exact hprev
      · intro heq
        rw [heq] at hhead
        rcases List.mem_append.mp hhead with hm | hm
        · exact hbl hm
        · exact hcb (List.mem_singleton.mp hm).symm
    · rw [hnext', if_neg ?_]
      · exact hnext
      · intro heq
        rw [heq] at htail
        rcases List.mem_cons.mp htail with hm | hm
        · exact hcb hm
        · exact hcr hm
  · intro y hy _
    rw [hold] at hy
    have hyc : y ≠ c := by
      rintro rfl
      exact hy (List.mem_append_right _ List.mem_cons_self)
    have hyb : y ≠ b := by
      rintro rfl
      exact hy (hperm.mem_iff.mpr (List.mem_cons_of_mem _
        (List.mem_append_right _ (List.mem_cons_of_mem _ List.mem_cons_self))))
    rw [hnext', hprev', if_neg hyc, if_neg hyb]
    exact ⟨rfl, rfl⟩

end Changes

section Operations

variable {s : Memory} {a : Sequences} {list x b : Addr}

theorem chain_ne_nil (xs : List Addr) (list : Addr) :
    ∃ b l₂, xs ++ [tail list] = b :: l₂ :=
  List.exists_cons_of_ne_nil (List.append_ne_nil_of_right_ne_nil _ (List.cons_ne_nil _ _))

theorem insertIn_eq {l : List Addr} (h : b ∈ l) :
    ∃ u v, l = u ++ b :: v ∧ insertIn b x l = u ++ x :: b :: v := by
  induction l with
  | nil => cases h
  | cons y l ih =>
    unfold insertIn
    by_cases hy : y = b
    · rw [if_pos hy, hy]
      exact ⟨[], l, rfl, rfl⟩
    · rcases List.mem_cons.mp h with rfl | h
      · exact absurd rfl hy
      · obtain ⟨u, v, h1, h2⟩ := ih h
        rw [if_neg hy, h2]
        exact ⟨y :: u, v, by rw [h1]; rfl, rfl⟩

theorem Represents.first (h : Represents s a) (hlist : list ∈ a.lists) {l₂ : List Addr}
    (hb : a.seq list ++ [tail list] = b :: l₂) : s.next (head list) = b := by
  have hlinked := h.linked list hlist
  rw [chain, hb] at hlinked
  exact (linked_cons_cons.mp hlinked).1.1

theorem Represents.push (h : Represents s a) (hlist : list ∈ a.lists) (hx : a.Fresh x) :
    Represents (listPush s list x) (a.set list (x :: a.seq list)) := by
  obtain ⟨b, l₂, hb⟩ := chain_ne_nil (a.seq list) list
  unfold listPush
  rw [h.first hlist hb]
  apply h.insert hlist hx (List.cons_ne_nil (head list) [])
  · rw [chain, hb]
    rfl
  · rw [chain, List.cons_append, hb]
    rfl

theorem Represents.append (h : Represents s a) (hlist : list ∈ a.lists) (hx : a.Fresh x) :
    Represents (listAppend s list x) (a.set list (a.seq list ++ [x])) := by
  apply h.insert hlist hx (List.cons_ne_nil (head list) (a.seq list)) rfl
  unfold chain
  rw [List.append_assoc]
  rfl

theorem Represents.insertBefore (h : Represents s a) (hlist : list ∈ a.lists)
    (hb : b ∈ a.seq list) (hx : a.Fresh x) :
    Represents (listInsertBefore s b x) (a.set list (insertIn b x (a.seq list))) := by
  obtain ⟨u, v, hu, hv⟩ := @insertIn_eq x b _ hb
  apply h.insert hlist hx (List.cons_ne_nil (head list) u)
  · rw [chain, hu, List.append_assoc]
    rfl
  · rw [chain, hv, List.append_assoc]
    rfl

/-- The element behind `u` is taken out. -/
theorem Represents.removeAt (h : Represents s a) (hlist : list ∈ a.lists) {u v : List Addr}
    (huv : a.seq list = u ++ x :: v) : Represents (listRemove s x) (a.set list (u ++ v)) := by
  obtain ⟨b, l₂, hb⟩ := chain_ne_nil v list
  obtain ⟨l₁, c, hw, -⟩ := append_cons_eq (List.cons_ne_nil (head list) u) x []
  have hleft : ∀ l, head list :: (u ++ l) = l₁ ++ c :: l := by
    intro l
    rw [← List.cons_append, hw, List.append_assoc, List.singleton_append]
  have hold : chain list (a.seq list) = l₁ ++ c :: x :: b :: l₂ := by
    rw [chain, huv, List.append_assoc, List.cons_append, hb, hleft]
  have hnew : chain list (u ++ v) = l₁ ++ c :: b :: l₂ := by
    rw [chain, List.append_assoc, hb, hleft]
  exact h.remove hlist hold hnew

theorem Represents.erase (h : Represents s a) (hlist : list ∈ a.lists) (hx : x ∈ a.seq list) :
    Represents (listRemove s x) (a.set list ((a.seq list).erase x)) := by
  obtain ⟨u, v, -, hseq, herase⟩ := List.exists_erase_eq hx
  rw [herase]
  exact h.removeAt hlist hseq

theorem Represents.pop (h : Represents s a) (hlist : list ∈ a.lists) :
    (listPop s list).1 = (a.seq list).headD null ∧
      Represents (listPop s list).2 (a.set list (a.seq list).tail) := by
  unfold listPop
  cases hseq : a.seq list with
  | nil =>
    have hfirst : s.next (head list) = tail list := by
      apply h.first hlist
      rw [hseq]
      rfl
    rw [if_pos hfirst]
    refine ⟨rfl, ?_⟩
    have hsame : a.set list ([] : List Addr).tail = a := by
      unfold Sequences.set
      rw [List.tail_nil, ← hseq, Function.update_eq_self]
    rw [hsame]
    exact h
  | cons y v =>
    have hfirst : s.next (head list) = y := by
      apply h.first hlist
      rw [hseq]
      rfl
    have hne : y ≠ tail list := by
      have hnd := h.nodup list hlist
      rw [chain, hseq, List.nodup_cons, List.cons_append, List.nodup_cons] at hnd
      exact fun heq => hnd.2.1 (heq ▸ List.mem_append_right _ (List.mem_singleton_self _))
    rw [hfirst, if_neg hne]
    have hpop : Represents (listRemove s y) (a.set list ([] ++ v)) := h.removeAt hlist hseq
    exact ⟨rfl, hpop⟩

theorem Represents.init (h : Represents s a) (hhead : a.Fresh (head list))
    (htail : a.Fresh (tail list)) :
    Represents (listInit s list) ⟨list :: a.lists, Function.update a.seq list []⟩ := by
  have hnot : list ∉ a.lists := fun hl => hhead list hl head_mem
  have hseq : ∀ list' ∈ a.lists, Function.update a.seq list [] list' = a.seq list' :=
    fun list' hl => Function.update_of_ne (fun heq : list' = list => hnot (heq ▸ hl)) _ _
  have hkeep : ∀ list' ∈ a.lists, ∀ y ∈ chain list' (a.seq list'),
      (listInit s list).next y = s.next y ∧ (listInit s list).prev y = s.prev y := by
    intro list' hl y hy
    have hyh : y ≠ head list := fun heq => hhead list' hl (heq ▸ hy)
    have hyt : y ≠ tail list := fun heq => htail list' hl (heq ▸ hy)
    rw [next_init, prev_init, if_neg hyt, if_neg hyh, if_neg hyt, if_neg hyh]
    exact ⟨rfl, rfl⟩
  have hnew : ∀ list' ∈ a.lists, ∀ y ∈ chain list [], y ∉ chain list' (a.seq list') := by
    intro list' hl y hy
    rcases List.mem_cons.mp hy with rfl | hy
    · exact hhead list' hl
    · obtain rfl := List.mem_singleton.mp hy
      exact htail list' hl
  constructor
  · intro list' hl
    rcases List.mem_cons.mp hl with rfl | hl
    · dsimp only
      rw [Function.update_self]
      apply linked_cons_cons.mpr ⟨⟨?_, ?_⟩, .singleton _⟩
      · rw [next_init, if_neg head_ne_tail, if_pos rfl]
      · rw [prev_init, if_pos rfl]
    · dsimp only
      rw [hseq list' hl]
      exact (h.linked list' hl).frame (fun y hy => (hkeep list' hl y hy).1)
        fun y hy => (hkeep list' hl y hy).2
  · intro list' hl
    rcases List.mem_cons.mp hl with rfl | hl
    · dsimp only
      rw [Function.update_self, chain, List.nil_append, List.nodup_cons]
      exact ⟨fun hm => head_ne_tail (List.mem_singleton.mp hm), List.nodup_singleton _⟩
    · dsimp only
      rw [hseq list' hl]
      exact h.nodup list' hl
  · intro m hm m' hm' hne y hy
    dsimp only at hy ⊢
    rcases List.mem_cons.mp hm with rfl | hold
    · rcases List.mem_cons.mp hm' with rfl | hold'
      · exact absurd rfl hne
      · rw [Function.update_self] at hy
        rw [hseq m' hold']
        exact hnew m' hold' y hy
    · rw [hseq m hold] at hy
      rcases List.mem_cons.mp hm' with rfl | hold'
      · rw [Function.update_self]
        exact fun hy' => hnew m hold y hy' hy
      · rw [hseq m' hold']
        exact h.apart m hold m' hold' hne y hy
  · intro list' hl
    rcases List.mem_cons.mp hl with rfl | hl
    · rw [prev_init, next_init, if_neg head_ne_tail, if_pos rfl, if_pos rfl]
      exact ⟨rfl, rfl⟩
    · rw [(hkeep list' hl _ head_mem).2, (hkeep list' hl _ tail_mem).1]
      exact h.ends list' hl

end Operations

section Queries

variable {s : Memory} {a : Sequences} {list t : Addr} {zs : List Addr}

/-- The forward link of a place in front of the rest. -/
theorem linked_step {z : Addr} (h : Linked s.next s.prev (z :: (zs ++ [t]))) :
    s.next z = zs.headD t ∧ Linked s.next s.prev (zs ++ [t]) := by
  cases zs with
  | nil =>
    obtain ⟨h1, h2⟩ := linked_cons_cons.mp h
    exact ⟨h1.1, h2⟩
  | cons y zs =>
    obtain ⟨h1, h2⟩ := linked_cons_cons.mp h
    exact ⟨h1.1, h2⟩

theorem searchLoop_eq {test : Addr → Bool} : ∀ zs : List Addr, ∀ fuel > zs.length,
    Linked s.next s.prev (zs ++ [t]) → t ∉ zs →
    searchLoop s test t fuel (zs.headD t) = some (zs.find? test) := by
  intro zs
  induction zs with
  | nil =>
    intro fuel hfuel _ _
    obtain ⟨fuel, rfl⟩ := Nat.exists_eq_succ_of_ne_zero (Nat.ne_of_gt hfuel)
    exact if_pos rfl
  | cons z zs ih =>
    intro fuel hfuel hlinked ht
    obtain ⟨fuel, rfl⟩ := Nat.exists_eq_succ_of_ne_zero (Nat.ne_zero_of_lt hfuel)
    obtain ⟨hnext, hrest⟩ := linked_step hlinked
    have hz : z ≠ t := fun heq => ht (heq ▸ List.mem_cons_self)
    unfold searchLoop
    rw [List.headD_cons, if_neg hz, List.find?_cons, hnext]
    cases htest : test z with
    | true => rfl
    | false =>
      exact ih fuel (Nat.lt_of_succ_lt_succ hfuel) hrest fun hm => ht (List.mem_cons_of_mem _ hm)

theorem lenLoop_eq : ∀ zs : List Addr, ∀ fuel > zs.length, ∀ n, n + zs.length < 2 ^ 32 →
    Linked s.next s.prev (zs ++ [t]) → t ∉ zs →
    lenLoop s t fuel (zs.headD t) n = some (n + zs.length) := by
  intro zs
  induction zs with
  | nil =>
    intro fuel hfuel n _ _ _
    obtain ⟨fuel, rfl⟩ := Nat.exists_eq_succ_of_ne_zero (Nat.ne_of_gt hfuel)
    exact if_pos rfl
  | cons z zs ih =>
    intro fuel hfuel n hn hlinked ht
    obtain ⟨fuel, rfl⟩ := Nat.exists_eq_succ_of_ne_zero (Nat.ne_zero_of_lt hfuel)
    obtain ⟨hnext, hrest⟩ := linked_step hlinked
    have hz : z ≠ t := fun heq => ht (heq ▸ List.mem_cons_self)
    rw [List.length_cons] at hn
    unfold lenLoop
    rw [List.headD_cons, if_neg hz, hnext, Nat.mod_eq_of_lt (by omega),
      ih fuel (Nat.lt_of_succ_lt_succ hfuel) (n + 1) (by omega) hrest
        fun hm => ht (List.mem_cons_of_mem _ hm), List.length_cons]
    congr 1
    omega

/-- There are no more places than addresses. -/
theorem length_lt (h : (chain list zs).Nodup) : zs.length < 2 ^ 32 := by
  have hmap : ((chain list zs).map BitVec.toFin).Nodup :=
    h.map fun _ _ hxy => BitVec.eq_of_toFin_eq hxy
  have hcard := hmap.length_le_card
  rw [Fintype.card_fin, List.length_map, chain, List.length_cons, List.length_append,
    List.length_singleton] at hcard
  omega

theorem Represents.answers (h : Represents s a) : Answers s a := by
  have hwalk : ∀ list ∈ a.lists, s.next (head list) = (a.seq list).headD (tail list) ∧
      Linked s.next s.prev (a.seq list ++ [tail list]) ∧ tail list ∉ a.seq list := by
    intro list hlist
    have hnd := h.nodup list hlist
    rw [chain, List.nodup_cons, List.nodup_append] at hnd
    obtain ⟨h1, h2⟩ := linked_step (h.linked list hlist)
    exact ⟨h1, h2, fun hm => hnd.2.2.2 _ hm _ (List.mem_singleton_self _) rfl⟩
  have hempty : ∀ list ∈ a.lists, listIsEmpty s list = decide (a.seq list = []) := by
    intro list hlist
    obtain ⟨h1, -, h3⟩ := hwalk list hlist
    unfold listIsEmpty
    rw [h1]
    cases hseq : a.seq list with
    | nil => simp
    | cons y l =>
      rw [hseq] at h3
      have hy : y ≠ tail list := fun heq => h3 (heq ▸ List.mem_cons_self)
      simp [hy]
  constructor
  · intro list hlist elem fuel hfuel
    obtain ⟨h1, h2, h3⟩ := hwalk list hlist
    unfold listElemExist
    rw [h1, searchLoop_eq _ fuel hfuel h2 h3, Option.map_some]
    congr 1
    rw [List.isSome_find?, Bool.eq_iff_iff, List.any_eq_true, decide_eq_true_iff]
    simp
  · intro list hlist fuel hfuel
    obtain ⟨h1, h2, h3⟩ := hwalk list hlist
    unfold listLen
    rw [h1, lenLoop_eq _ fuel hfuel 0 (by rw [Nat.zero_add]; exact length_lt (h.nodup list hlist))
      h2 h3, Nat.zero_add]
  · exact hempty
  · intro list hlist func arg fuel hfuel
    obtain ⟨h1, h2, h3⟩ := hwalk list hlist
    unfold listTraversal
    rw [hempty list hlist]
    by_cases hnil : a.seq list = []
    · rw [decide_eq_true hnil, if_pos rfl, hnil]
      rfl
    · rw [decide_eq_false hnil, if_neg Bool.false_ne_true, h1, searchLoop_eq _ fuel hfuel h2 h3]
      rfl
  · exact fun list hlist => (h.pop hlist).1

end Queries

section Law

variable {s s' : Memory} {a a' : Sequences}

theorem Step.represents {t t' : Memory × Sequences} (h : Represents t.1 t.2) (hst : Step t t') :
    Represents t'.1 t'.2 := by
  cases hst with
  | op op hlegal =>
    cases op with
    | init list => exact h.init hlegal.1 hlegal.2
    | push list elem => exact h.push hlegal.1 hlegal.2
    | append list elem => exact h.append hlegal.1 hlegal.2
    | insertBefore list before elem => exact h.insertBefore hlegal.1 hlegal.2.1 hlegal.2.2
    | pop list => exact (h.pop hlegal).2
    | remove list elem => exact h.erase hlegal.1 hlegal.2

/-- After any sequence of operations from memory without lists, each list stands for its sequence,
and the queries return what they are to return. -/
theorem list_law (hrun : Run Step (s, ⟨[], fun _ => []⟩) (s', a')) :
    Represents s' a' ∧ Answers s' a' := by
  have hstart : Represents s ⟨[], fun _ => []⟩ :=
    ⟨fun _ hl => absurd hl List.not_mem_nil, fun _ hl => absurd hl List.not_mem_nil,
      fun _ hl => absurd hl List.not_mem_nil, fun _ hl => absurd hl List.not_mem_nil⟩
  have hstep : ∀ t t' : Memory × Sequences, Represents t.1 t.2 → Step t t' →
      Represents t'.1 t'.2 := fun _ _ hI hst => hst.represents hI
  have hend := Run.invariant hstep hrun hstart
  exact ⟨hend, hend.answers⟩

/-- The steps of a list of operations. -/
def runAll : List Op → Memory × Sequences → Memory × Sequences
  | [], t => t
  | op :: ops, t => runAll ops (op.run t.1, op.act t.2)

def LegalAll : List Op → Sequences → Prop
  | [], _ => True
  | op :: ops, a => op.Legal a ∧ LegalAll ops (op.act a)

theorem run_runAll {ops : List Op} : ∀ {t : Memory × Sequences}, LegalAll ops t.2 →
    Run Step t (runAll ops t) := by
  induction ops with
  | nil => exact fun _ => .refl
  | cons op ops ih => exact fun h => .head (.op op h.1) (ih h.2)

/-- A list at 16 to which 64 is appended and 80 is linked in before it, and a list at 32. -/
def sampleOps : List Op := [.init 16, .init 32, .append 16 64, .insertBefore 16 64 80, .push 32 96]

def sampleStart : Memory × Sequences := (⟨fun _ => ⟨0, 0⟩, true⟩, ⟨[], fun _ => []⟩)

instance {op : Op} {a : Sequences} : Decidable (op.Legal a) :=
  match op with
  | .init list => inferInstanceAs (Decidable (a.Fresh (head list) ∧ a.Fresh (tail list)))
  | .push list elem => inferInstanceAs (Decidable (list ∈ a.lists ∧ a.Fresh elem))
  | .append list elem => inferInstanceAs (Decidable (list ∈ a.lists ∧ a.Fresh elem))
  | .insertBefore list before elem =>
    inferInstanceAs (Decidable (list ∈ a.lists ∧ before ∈ a.seq list ∧ a.Fresh elem))
  | .pop list => inferInstanceAs (Decidable (list ∈ a.lists))
  | .remove list elem => inferInstanceAs (Decidable (list ∈ a.lists ∧ elem ∈ a.seq list))

def decideLegal : ∀ (ops : List Op) (a : Sequences), Decidable (LegalAll ops a)
  | [], _ => .isTrue trivial
  | op :: ops, a =>
    have := decideLegal ops (op.act a)
    inferInstanceAs (Decidable (op.Legal a ∧ LegalAll ops (op.act a)))

instance {ops : List Op} {a : Sequences} : Decidable (LegalAll ops a) := decideLegal ops a

theorem sampleOps_legal : LegalAll sampleOps sampleStart.2 := by decide +kernel

theorem list_law_sample :
    Represents (runAll sampleOps sampleStart).1 (runAll sampleOps sampleStart).2 ∧
      Answers (runAll sampleOps sampleStart).1 (runAll sampleOps sampleStart).2 :=
  list_law (run_runAll sampleOps_legal)

end Law

end Gogoos.IntrusiveList

import Mathlib.Data.Finset.Sort
import PolemoDB.Lib.DisjointClasses

/-!
# Merging and intersecting equivalence classes of columns

The optimiser keeps what it knows of equal columns as an array of disjoint column sets.

* `addEquivClassToArray` — the pass that inserts one set into an array.
* `pdrgpcrsMergeEquivClasses` — the insertion of every set of a second array.
* `pdrgpcrsIntersectEquivClasses` — the map of the first array's columns and the loop that probes
  it.

The inserted set grows while the array is walked. For disjoint sets this does not change which of
the later ones it meets, so that one pass finds all of them.
-/

namespace PolemoDB.Gporca

open PolemoDB.Lib Relation Finset TransGen

universe u

variable {κ : Type u} [LinearOrder κ]

/-! ## The merge -/

/-- The loop of `AddEquivClassToArray`: the sets that are kept, and behind them the copy with what
it included. -/
def addEquivClassLoop : Finset κ → List (Finset κ) → List (Finset κ)
  | pcrsCopy, [] => [pcrsCopy]
  | pcrsCopy, pcrs :: pdrgpcrs =>
    if Disjoint pcrsCopy pcrs then pcrs :: addEquivClassLoop pcrsCopy pdrgpcrs
    else addEquivClassLoop (pcrsCopy ∪ pcrs) pdrgpcrs

def addEquivClassToArray (pcrsNew : Finset κ) (pdrgpcrs : List (Finset κ)) : List (Finset κ) :=
  addEquivClassLoop pcrsNew pdrgpcrs

def pdrgpcrsMergeEquivClasses (pdrgpcrsFst pdrgpcrsSnd : List (Finset κ)) : List (Finset κ) :=
  pdrgpcrsSnd.foldl (fun pdrgpcrsMerged pcrs => addEquivClassToArray pcrs pdrgpcrsMerged)
  pdrgpcrsFst

/-- What an equivalence class array promises. -/
structure EquivClasses (l : List (Finset κ)) : Prop where
  disjoint : l.Pairwise Disjoint
  nonempty : ∀ s ∈ l, s.Nonempty

/-- Two columns that one of the two arrays says to be equal. -/
def Linked (fst snd : List (Finset κ)) (a b : κ) : Prop := Share fst a b ∨ Share snd a b

/-- What the insertion leaves: the sets that do not meet the new one, and one set of all the others.
-/
structure Inserted (pcrsNew : Finset κ) (l : List (Finset κ)) (pcrsCopy : Finset κ)
    (out : List (Finset κ)) : Prop where
  out_eq : out = l.filter (fun s => Disjoint pcrsNew s) ++ [pcrsCopy]
  mem_copy : ∀ a, a ∈ pcrsCopy ↔ a ∈ pcrsNew ∨ ∃ s ∈ l, ¬ Disjoint pcrsNew s ∧ a ∈ s

variable {s : Finset κ} {l l' fst : List (Finset κ)} {c : κ}

theorem addEquivClassLoop_inserted (l : List (Finset κ)) (hl : l.Pairwise Disjoint)
    (pcrsNew : Finset κ) :
    ∃ pcrsCopy, Inserted pcrsNew l pcrsCopy (addEquivClassLoop pcrsNew l) := by
  induction l generalizing pcrsNew with
  | nil => exact ⟨pcrsNew, rfl, fun a => by simp⟩
  | cons s l ih =>
    obtain ⟨hs, hl⟩ := List.pairwise_cons.mp hl
    by_cases hnew : Disjoint pcrsNew s
    · obtain ⟨pcrsCopy, hout, hcopy⟩ := ih hl pcrsNew
      refine ⟨pcrsCopy, ?_, fun a => ?_⟩
      · simp [addEquivClassLoop, hnew, hout]
      · simp [hcopy a, hnew]
    obtain ⟨pcrsCopy, hout, hcopy⟩ := ih hl (pcrsNew ∪ s)
    -- the sets behind `s` are disjoint from it, so including it changes nothing for them
    have hsame : ∀ t ∈ l, (Disjoint (pcrsNew ∪ s) t ↔ Disjoint pcrsNew t) := fun t ht =>
      disjoint_union_left.trans (and_iff_left (hs t ht))
    refine ⟨pcrsCopy, ?_, fun a => ?_⟩
    · have hfilter : l.filter (fun t => Disjoint (pcrsNew ∪ s) t) =
          l.filter (fun t => Disjoint pcrsNew t) :=
        List.filter_congr fun t ht => by rw [decide_eq_decide, hsame t ht]
      rw [addEquivClassLoop, if_neg hnew, hout, hfilter,
        List.filter_cons_of_neg (by simpa using hnew)]
    rw [hcopy a, mem_union]
    constructor
    · rintro ((h | h) | ⟨t, ht, hmeet, h⟩)
      · exact .inl h
      · exact .inr ⟨s, List.mem_cons_self, hnew, h⟩
      · exact .inr ⟨t, List.mem_cons_of_mem s ht, by rwa [← hsame t ht], h⟩
    rintro (h | ⟨t, ht, hmeet, h⟩)
    · exact .inl (.inl h)
    · obtain rfl | ht := List.mem_cons.mp ht
      · exact .inl (.inr h)
      · exact .inr ⟨t, ht, by rwa [hsame t ht], h⟩

namespace Inserted

variable {pcrsNew pcrsCopy : Finset κ} {l out : List (Finset κ)}
  (h : Inserted pcrsNew l pcrsCopy out)

include h

theorem mem_out {s : Finset κ} : s ∈ out ↔ (s ∈ l ∧ Disjoint pcrsNew s) ∨ s = pcrsCopy := by
  rw [h.out_eq]
  simp

theorem pairwise (hl : l.Pairwise Disjoint) : out.Pairwise Disjoint := by
  rw [h.out_eq, List.pairwise_append]
  refine ⟨hl.filter _, List.pairwise_singleton _ _, fun s hs t ht => ?_⟩
  rw [List.mem_singleton] at ht
  subst ht
  obtain ⟨hsl, hdisjoint⟩ := List.mem_filter.mp hs
  have hdisjoint : Disjoint pcrsNew s := of_decide_eq_true hdisjoint
  refine disjoint_left.mpr fun a has hcopy => ?_
  rcases (h.mem_copy a).mp hcopy with hnew | ⟨u, hu, hmeet, hau⟩
  · exact disjoint_left.mp hdisjoint hnew has
  · exact hmeet (eq_of_mem_of_mem hl hu hsl hau has ▸ hdisjoint)

theorem share_of_linked {a b : κ} (hab : Linked l [pcrsNew] a b) : Share out a b := by
  rcases hab with ⟨s, hs, ha, hb⟩ | ⟨s, hs, ha, hb⟩
  · by_cases hdisjoint : Disjoint pcrsNew s
    · exact ⟨s, h.mem_out.mpr (.inl ⟨hs, hdisjoint⟩), ha, hb⟩
    · exact ⟨pcrsCopy, h.mem_out.mpr (.inr rfl), (h.mem_copy a).mpr (.inr ⟨s, hs, hdisjoint, ha⟩),
        (h.mem_copy b).mpr (.inr ⟨s, hs, hdisjoint, hb⟩)⟩
  · rw [List.mem_singleton] at hs
    subst hs
    exact ⟨pcrsCopy, h.mem_out.mpr (.inr rfl), (h.mem_copy a).mpr (.inl ha),
      (h.mem_copy b).mpr (.inl hb)⟩

theorem linked_to_new {a : κ} (ha : a ∈ pcrsCopy) :
    ∃ x ∈ pcrsNew, Linked l [pcrsNew] a x ∧ Linked l [pcrsNew] x a := by
  rcases (h.mem_copy a).mp ha with hnew | ⟨s, hs, hmeet, has⟩
  · have hself : Linked l [pcrsNew] a a := .inr ⟨pcrsNew, List.mem_singleton_self _, hnew, hnew⟩
    exact ⟨a, hnew, hself, hself⟩
  · obtain ⟨x, hxnew, hxs⟩ := not_disjoint_iff.mp hmeet
    exact ⟨x, hxnew, .inl ⟨s, hs, has, hxs⟩, .inl ⟨s, hs, hxs, has⟩⟩

theorem transGen_of_share {a b : κ} (hab : Share out a b) : TransGen (Linked l [pcrsNew]) a b := by
  obtain ⟨s, hs, ha, hb⟩ := hab
  rcases h.mem_out.mp hs with ⟨hsl, -⟩ | rfl
  · exact single (.inl ⟨s, hsl, ha, hb⟩)
  obtain ⟨x, hx, hax, -⟩ := h.linked_to_new ha
  obtain ⟨y, hy, -, hyb⟩ := h.linked_to_new hb
  have hxy : Linked l [pcrsNew] x y := .inr ⟨pcrsNew, List.mem_singleton_self _, hx, hy⟩
  exact ((single hax).tail hxy).tail hyb

end Inserted

theorem addEquivClassToArray_spec (hl : l.Pairwise Disjoint) (pcrsNew : Finset κ) :
    (addEquivClassToArray pcrsNew l).Pairwise Disjoint ∧
      ∀ a b, Share (addEquivClassToArray pcrsNew l) a b ↔ TransGen (Linked l [pcrsNew]) a b := by
  obtain ⟨pcrsCopy, h⟩ := addEquivClassLoop_inserted l hl pcrsNew
  have hdisjoint := h.pairwise hl
  exact ⟨hdisjoint, transGen_iff_share hdisjoint (fun _ _ => h.share_of_linked) fun _
    _ => h.transGen_of_share⟩

omit [LinearOrder κ] in
theorem transGen_linked_cons {rest : List (Finset κ)}
    (hl' : ∀ a b, Share l' a b ↔ TransGen (Linked l [s]) a b) (a b : κ) :
    TransGen (Linked l' rest) a b ↔ TransGen (Linked l (s :: rest)) a b := by
  have hhead : ∀ x y, Linked l [s] x y → Linked l (s :: rest) x y := fun x y h =>
    h.imp_right fun hs => (share_append (l := [s])).mpr (.inl hs)
  have hlink : ∀ x y, Linked l' rest x y → TransGen (Linked l (s :: rest)) x y := by
    rintro x y (hxy | hxy)
    · exact mono hhead x y ((hl' x y).mp hxy)
    · exact single (.inr ((share_append (l := [s])).mpr (.inr hxy)))
  constructor
  · intro h
    induction h with
    | single hxy => exact hlink _ _ hxy
    | tail _ hxy ih => exact ih.trans (hlink _ _ hxy)
  refine mono (fun x y hxy => ?_) a b
  rcases hxy with hxy | hxy
  · exact .inl ((hl' x y).mpr (single (.inl hxy)))
  · rcases (share_append (l := [s])).mp hxy with hs | hrest
    · exact .inl ((hl' x y).mpr (single (.inr hs)))
    · exact .inr hrest

theorem merge_spec (snd fst : List (Finset κ)) (hfst : fst.Pairwise Disjoint) :
    (pdrgpcrsMergeEquivClasses fst snd).Pairwise Disjoint ∧
      ∀ a b, Share (pdrgpcrsMergeEquivClasses fst snd) a b ↔ TransGen (Linked fst snd) a b := by
  induction snd generalizing fst with
  | nil =>
    refine ⟨hfst, transGen_iff_share hfst (fun a b hab => ?_) fun a b hab => ?_⟩
    · exact hab.resolve_right share_nil
    · exact single (.inl hab)
  | cons s rest ih =>
    obtain ⟨hdisjoint, hshare⟩ := addEquivClassToArray_spec hfst s
    obtain ⟨hout, hclosure⟩ := ih (addEquivClassToArray s fst) hdisjoint
    exact ⟨hout, fun a b => (hclosure a b).trans (transGen_linked_cons hshare a b)⟩

omit [LinearOrder κ] in
theorem transGen_linked_self_iff {a : κ} : TransGen (Linked l l') a a ↔ Linked l l' a a := by
  refine ⟨fun h => ?_, single⟩
  obtain ⟨b, hab, -⟩ := head'_iff.mp h
  rcases hab with ⟨s, hs, ha, -⟩ | ⟨s, hs, ha, -⟩
  · exact .inl ⟨s, hs, ha, ha⟩
  · exact .inr ⟨s, hs, ha, ha⟩

/-! ## The intersection -/

/-- `phmcscrs`, from a column to the set of the first array that has it. -/
abbrev ColRefToColRefSetMap (κ : Type u) := κ → Option (Finset κ)

/-- `Insert`, which does nothing for a key that is there. -/
def ColRefToColRefSetMap.insert (m : ColRefToColRefSetMap κ) (colref : κ) (pcrs : Finset κ) :
    ColRefToColRefSetMap κ :=
  fun c => if c = colref ∧ m c = none then some pcrs else m c

/-- The map of the columns of the first array. -/
def populate (pdrgpcrsFst : List (Finset κ)) : ColRefToColRefSetMap κ :=
  pdrgpcrsFst.foldl (fun m pcrsFst => pcrsFst.sort.foldl (fun m colref => m.insert colref pcrsFst)
  m) fun _ => none

/-- The intersections so far and the columns of `phmcscrDone`. -/
structure ProbeState (κ : Type u) where
  pdrgpcrs : List (Finset κ)
  phmcscrDone : Finset κ

/-- The body of the probing loop, for one column of a set of the second array. -/
def probeColumn (phmcscrs : ColRefToColRefSetMap κ) (pcrsSnd : Finset κ) (st : ProbeState κ)
    (colref : κ) : ProbeState κ :=
  match phmcscrs colref with
  | none => st
  | some pcrs =>
    if colref ∈ st.phmcscrDone then st
    else
      { pdrgpcrs := st.pdrgpcrs ++ [pcrsSnd ∩ pcrs]
        phmcscrDone := st.phmcscrDone ∪ pcrsSnd ∩ pcrs }

/-- The probing loop over one set of the second array. -/
def probeSet (phmcscrs : ColRefToColRefSetMap κ) (st : ProbeState κ) (pcrsSnd : Finset κ) :
    ProbeState κ :=
  pcrsSnd.sort.foldl (probeColumn phmcscrs pcrsSnd) st

def pdrgpcrsIntersectEquivClasses (pdrgpcrsFst pdrgpcrsSnd : List (Finset κ)) : List (Finset κ) :=
  if pdrgpcrsSnd.length = 0 ∨ pdrgpcrsFst.length = 0 then []
  else (pdrgpcrsSnd.foldl (probeSet (populate pdrgpcrsFst)) ⟨[], ∅⟩).pdrgpcrs

theorem insert_columns (cs : List κ) (pcrsFst : Finset κ) (m : ColRefToColRefSetMap κ) (c : κ) :
    (cs.foldl (fun m colref => m.insert colref pcrsFst) m) c =
      if c ∈ cs ∧ m c = none then some pcrsFst else m c := by
  induction cs generalizing m with
  | nil => simp
  | cons c' cs ih =>
    rw [List.foldl_cons, ih (m.insert c' pcrsFst)]
    by_cases hc : c = c'
    · subst hc
      by_cases hm : m c = none <;> simp [ColRefToColRefSetMap.insert, hm]
    · simp [ColRefToColRefSetMap.insert, hc]

theorem populate_eq_find (fst : List (Finset κ)) (c : κ) :
    populate fst c = fst.find? (fun s => c ∈ s) := by
  have hgeneral : ∀ (l : List (Finset κ)) (m : ColRefToColRefSetMap κ),
      (l.foldl (fun m pcrsFst => pcrsFst.sort.foldl (fun m colref => m.insert colref pcrsFst) m) m)
        c = (m c).or (l.find? (fun s => c ∈ s)) := by
    intro l
    induction l with
    | nil => simp
    | cons s l ih =>
      intro m
      rw [List.foldl_cons, ih, insert_columns]
      by_cases hc : c ∈ s
      · cases hm : m c <;> simp [hc]
      · simp [hc]
  rw [populate, hgeneral, Option.none_or]

theorem populate_eq_some (h : populate fst c = some s) : s ∈ fst ∧ c ∈ s := by
  rw [populate_eq_find] at h
  have hc := List.find?_some h
  exact ⟨List.mem_of_find?_eq_some h, of_decide_eq_true hc⟩

theorem populate_eq_none (h : populate fst c = none) : ∀ s ∈ fst, c ∉ s := by
  rw [populate_eq_find, List.find?_eq_none] at h
  exact fun s hs hc => h s hs (decide_eq_true hc)

/-- The invariant of the probing loop. -/
structure Probed (fst snd : List (Finset κ)) (st : ProbeState κ) : Prop where
  sets : ∀ n ∈ st.pdrgpcrs, ∃ t ∈ snd, ∃ s ∈ fst, n = t ∩ s
  done : ∀ x, x ∈ st.phmcscrDone ↔ ∃ n ∈ st.pdrgpcrs, x ∈ n
  nonempty : ∀ n ∈ st.pdrgpcrs, n.Nonempty
  disjoint : st.pdrgpcrs.Pairwise Disjoint

section Probe

variable {fst snd : List (Finset κ)} (hfst : fst.Pairwise Disjoint) (hsnd : snd.Pairwise Disjoint)

theorem probed_nil : Probed fst snd ⟨[], ∅⟩ where
  sets := by simp
  done := by simp
  nonempty := by simp
  disjoint := List.Pairwise.nil

include hfst hsnd

variable {st : ProbeState κ} {t : Finset κ}

/-- One new intersection: a column that is not done is in none of the earlier ones, so neither is
any other column of its two sets. -/
theorem Probed.append (h : Probed fst snd st) {s : Finset κ} (ht : t ∈ snd)
    (hs : s ∈ fst) {c : κ} (hct : c ∈ t) (hcs : c ∈ s) (hdone : c ∉ st.phmcscrDone) :
    Probed fst snd
      { pdrgpcrs := st.pdrgpcrs ++ [t ∩ s], phmcscrDone := st.phmcscrDone ∪ t ∩ s } where
  sets := List.forall_mem_append.mpr
    ⟨h.sets, List.forall_mem_singleton.mpr ⟨t, ht, s, hs, rfl⟩⟩
  done := by
    intro x
    simp only [mem_union, h.done x, List.mem_append, List.mem_singleton, or_and_right, exists_or,
      exists_eq_left]
  nonempty := List.forall_mem_append.mpr
    ⟨h.nonempty, List.forall_mem_singleton.mpr ⟨c, mem_inter.mpr ⟨hct, hcs⟩⟩⟩
  disjoint := by
    refine List.pairwise_append.mpr ⟨h.disjoint, List.pairwise_singleton _ _, fun n hn n' hn' => ?_⟩
    rw [List.mem_singleton] at hn'
    subst hn'
    refine disjoint_left.mpr fun x hx hx' => hdone ?_
    obtain ⟨t', ht', s', hs', rfl⟩ := h.sets n hn
    rw [mem_inter] at hx hx'
    have htt : t = t' := eq_of_mem_of_mem hsnd ht ht' hx'.1 hx.1
    have hss : s = s' := eq_of_mem_of_mem hfst hs hs' hx'.2 hx.2
    exact (h.done c).mpr ⟨t' ∩ s', hn, mem_inter.mpr ⟨htt ▸ hct, hss ▸ hcs⟩⟩

/-- A part of the loop: the invariant stays, nothing done is undone, and the columns are done that
the first array has. -/
structure Probes (fst snd : List (Finset κ)) (st st' : ProbeState κ) (cs : List κ) : Prop where
  probed : Probed fst snd st'
  grows : st.phmcscrDone ⊆ st'.phmcscrDone
  done : ∀ c ∈ cs, (∃ s ∈ fst, c ∈ s) → c ∈ st'.phmcscrDone

omit hfst hsnd in
theorem Probes.trans {st' st'' : ProbeState κ} {cs cs' : List κ} (h : Probes fst snd st st' cs)
    (h' : Probes fst snd st' st'' cs') : Probes fst snd st st'' (cs ++ cs') where
  probed := h'.probed
  grows := h.grows.trans h'.grows
  done := List.forall_mem_append.mpr
    ⟨fun c hc hfirst => h'.grows (h.done c hc hfirst), h'.done⟩

theorem probeColumn_spec (h : Probed fst snd st) (ht : t ∈ snd) {c : κ}
    (hct : c ∈ t) : Probes fst snd st (probeColumn (populate fst) t st c) [c] := by
  unfold probeColumn
  cases hfind : populate fst c with
  | none =>
    refine ⟨h, Subset.refl _, ?_⟩
    rintro c' hc' ⟨s, hs, hcs⟩
    exact absurd (List.mem_singleton.mp hc' ▸ hcs) (populate_eq_none hfind s hs)
  | some s =>
    obtain ⟨hs, hcs⟩ := populate_eq_some hfind
    dsimp only
    split
    case isTrue hdone => exact ⟨h, Subset.refl _, fun c' hc' _ => List.mem_singleton.mp hc' ▸ hdone⟩
    case isFalse hdone =>
      refine ⟨h.append hfst hsnd ht hs hct hcs hdone, subset_union_left, fun c' hc' _ => ?_⟩
      rw [List.mem_singleton.mp hc']
      exact mem_union_right _ (mem_inter.mpr ⟨hct, hcs⟩)

theorem probeColumns_spec (ht : t ∈ snd) (cs : List κ) (hcs : ∀ c ∈ cs, c ∈ t)
    (h : Probed fst snd st) :
    Probes fst snd st (cs.foldl (probeColumn (populate fst) t) st) cs := by
  induction cs generalizing st with
  | nil => exact ⟨h, Subset.refl _, fun c hc => absurd hc List.not_mem_nil⟩
  | cons c cs ih =>
    have hstep := probeColumn_spec hfst hsnd h ht (hcs c List.mem_cons_self)
    exact hstep.trans (ih (fun c' hc' => hcs c' (List.mem_cons_of_mem c hc')) hstep.probed)

theorem probeSets_spec (ts : List (Finset κ)) (hts : ∀ t ∈ ts, t ∈ snd) (h : Probed fst snd st) :
    Probes fst snd st (ts.foldl (probeSet (populate fst)) st) (ts.flatMap fun t => t.sort) := by
  induction ts generalizing st with
  | nil => exact ⟨h, Subset.refl _, fun c hc => absurd hc List.not_mem_nil⟩
  | cons t ts ih =>
    have hstep := probeColumns_spec hfst hsnd (hts t List.mem_cons_self) t.sort
      (fun c hc => (mem_sort _).mp hc) h
    exact hstep.trans (ih (fun t' ht' => hts t' (List.mem_cons_of_mem t ht')) hstep.probed)

theorem intersect_spec : (pdrgpcrsIntersectEquivClasses fst snd).Pairwise Disjoint ∧
      (∀ n ∈ pdrgpcrsIntersectEquivClasses fst snd, n.Nonempty) ∧
      ∀ a b, Share (pdrgpcrsIntersectEquivClasses fst snd) a b ↔ Share fst a b ∧ Share snd a b := by
  unfold pdrgpcrsIntersectEquivClasses
  split
  case isTrue hempty =>
    refine ⟨List.Pairwise.nil, by simp,
      fun a b => ⟨fun h => absurd h share_nil, fun ⟨hf, hs⟩ => ?_⟩⟩
    rcases hempty with hempty | hempty
    · rw [List.length_eq_zero_iff.mp hempty] at hs
      exact absurd hs share_nil
    · rw [List.length_eq_zero_iff.mp hempty] at hf
      exact absurd hf share_nil
  case isFalse =>
    have hrun := probeSets_spec hfst hsnd snd (fun _ ht => ht) probed_nil
    have h := hrun.probed
    refine ⟨h.disjoint, h.nonempty, fun a b => ⟨?_, ?_⟩⟩
    · rintro ⟨n, hn, ha, hb⟩
      obtain ⟨t, ht, s, hs, rfl⟩ := h.sets n hn
      rw [mem_inter] at ha hb
      exact ⟨⟨s, hs, ha.2, hb.2⟩, ⟨t, ht, ha.1, hb.1⟩⟩
    rintro ⟨⟨s, hs, has, hbs⟩, ⟨t, ht, hat, hbt⟩⟩
    have hcolumn : a ∈ snd.flatMap fun t => t.sort :=
      List.mem_flatMap.mpr ⟨t, ht, (mem_sort _).mpr hat⟩
    obtain ⟨n, hn, han⟩ := (h.done a).mp (hrun.done a hcolumn ⟨s, hs, has⟩)
    obtain ⟨t', ht', s', hs', rfl⟩ := h.sets n hn
    rw [mem_inter] at han
    have htt : t = t' := eq_of_mem_of_mem hsnd ht ht' hat han.1
    have hss : s = s' := eq_of_mem_of_mem hfst hs hs' has han.2
    exact ⟨t' ∩ s', hn, mem_inter.mpr han, mem_inter.mpr ⟨htt ▸ hbt, hss ▸ hbs⟩⟩

end Probe

/-! ## The result -/

/-- **Merging and intersecting equivalence classes.** The merge is the closure of the two arrays'
links and covers their columns; the intersection relates the columns that both relate; both are
disjoint. -/
theorem equivClasses_merge_intersect (fst snd : List (Finset κ)) (hfst : EquivClasses fst)
    (hsnd : EquivClasses snd) :
    ((pdrgpcrsMergeEquivClasses fst snd).Pairwise Disjoint ∧
      (∀ a b, Share (pdrgpcrsMergeEquivClasses fst snd) a b ↔
        TransGen (fun x y => Share fst x y ∨ Share snd x y) a b) ∧
      (∀ a, (∃ s ∈ pdrgpcrsMergeEquivClasses fst snd, a ∈ s) ↔
        (∃ s ∈ fst, a ∈ s) ∨ ∃ s ∈ snd, a ∈ s)) ∧
    ((pdrgpcrsIntersectEquivClasses fst snd).Pairwise Disjoint ∧
      (pdrgpcrsIntersectEquivClasses fst snd).Nodup ∧
      ∀ a b, Share (pdrgpcrsIntersectEquivClasses fst snd) a b ↔ Share fst a b ∧
      Share snd a b) := by
  obtain ⟨hmerged, hclosure⟩ := merge_spec snd fst hfst.disjoint
  obtain ⟨hdisjoint, hnonempty, hboth⟩ := intersect_spec hfst.disjoint hsnd.disjoint
  refine ⟨⟨hmerged, hclosure, fun a => ?_⟩, hdisjoint, nodup_of_disjoint hdisjoint hnonempty, hboth⟩
  rw [covered_iff_share, covered_iff_share, covered_iff_share, hclosure a a]
  exact transGen_linked_self_iff

/-- Two arrays that join `1`, `2`, `3` and `4` by a chain. -/
theorem equivClasses_merge_intersect_chain :
    EquivClasses [{1, 2}, {3, 4}, {7}] ∧ EquivClasses [{2, 3, 4}, ({5} : Finset ℕ)] ∧
      pdrgpcrsMergeEquivClasses [{1, 2}, {3, 4}, {7}] [{2, 3, 4}, ({5} : Finset ℕ)] =
      [{7}, {1, 2, 3, 4}, {5}] ∧
      (pdrgpcrsIntersectEquivClasses [{1, 2}, {3, 4}, {7}] [{2, 3, 4},
      ({5} : Finset ℕ)]).Nodup := by
  have hfst : EquivClasses [{1, 2}, {3, 4}, ({7} : Finset ℕ)] := ⟨by decide, by decide⟩
  have hsnd : EquivClasses [{2, 3, 4}, ({5} : Finset ℕ)] := ⟨by decide, by decide⟩
  exact ⟨hfst, hsnd, by decide, (equivClasses_merge_intersect _ _ hfst hsnd).2.2.1⟩

end PolemoDB.Gporca

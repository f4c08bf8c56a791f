import BytecodeFold.Proofs.Codec.Regular
import BytecodeFold.StackDepth

/-!
# Stack depth and locals under new handles

The walk that finds the depth of the stack goes from handle to handle. In a regular listing it never
leaves the stream, and it goes the same way when every handle is replaced by another one. The depth
is also the same under a pool that has grown, as is the number of locals.
-/

namespace BytecodeFold

theorem Instruction.fallsThrough_mapTargets {τ σ : Type} (f : τ → σ) (code : Instruction τ) :
    (code.mapTargets f).fallsThrough = code.fallsThrough := by
  cases code <;> rfl

theorem Instruction.localSlot?_mapTargets {τ σ : Type} (f : τ → σ) (code : Instruction τ) :
    (code.mapTargets f).localSlot? = code.localSlot? := by
  cases code <;> rfl

/-- The effect of an instruction does not depend on its targets, nor on what is added to the
pool. -/
theorem Instruction.stackEffect_mapTargets {pool grown : ConstantPool}
    (extended : pool.Extends grown)
    (f : Handle → Handle) {code : Instruction Handle} {effect : StackEffect}
    (h : code.stackEffect pool = .ok effect) :
    (code.mapTargets f).stackEffect grown = .ok effect := by
  cases code with
  | invokeVirtual index =>
    obtain ⟨text, ht, h⟩ := Outcome.bind_eq_ok.mp h
    exact Outcome.bind_eq_ok.mpr ⟨text, extended.memberDescriptor_eq_ok ht, h⟩
  | _ => exact h

namespace Listing

variable {listing renamed : Listing} {pool grown : ConstantPool} {f : Handle → Handle}

/-! ## Sites -/

theorem sites_eq_some (distinct : listing.Distinct) {handle : Handle} {site : Site} :
    listing.sites[handle]? = some site ↔ ∃ before line after, listing.Cut before line after ∧
      line.handle = handle ∧ site = ⟨line.instruction, after.head?.map (·.handle)⟩ := by
  have hkeys : listing.lines.toList.zipIdx.map (fun entry => entry.1.handle) = listing.handles := by
    conv => rhs; rw [handles, ← List.zipIdx_map_fst 0 listing.lines.toList]
    rw [List.map_map]
    rfl
  rw [sites, ← Array.foldl_toList, Array.toList_zipIdx]
  change (listing.lines.toList.zipIdx.foldl (fun table entry => table.insert entry.1.handle
    (Site.mk entry.1.instruction (listing.lines[entry.2 + 1]?.map (·.handle))))
    (∅ : Std.HashMap Handle Site))[handle]? = _ ↔ _
  rw [getElem?_foldl_insert (hkeys ▸ distinct)]
  have hnext : ∀ {before after : List Line} {line : Line}, listing.Cut before line after →
      listing.lines[before.length + 1]? = after.head? := by
    intro before after line cut
    rw [← Array.getElem?_toList, show listing.lines.toList = _ from cut,
      List.getElem?_append_right (Nat.le_add_right _ _), Nat.add_sub_cancel_left,
      List.getElem?_cons_succ, List.head?_eq_getElem?]
  constructor
  · rintro ⟨⟨line, index⟩, hm, hh, rfl⟩
    rw [List.mk_mem_zipIdx_iff_getElem?] at hm
    obtain ⟨hlt, he⟩ := List.getElem?_eq_some_iff.mp hm
    have cut : listing.Cut (listing.lines.toList.take index) line
        (listing.lines.toList.drop (index + 1)) := by
      rw [Cut, ← he, ← List.drop_eq_getElem_cons hlt, List.take_append_drop]
    have hat := hnext cut
    rw [List.length_take, Nat.min_eq_left (Nat.le_of_lt hlt)] at hat
    exact ⟨_, line, _, cut, hh, by rw [hat]⟩
  · rintro ⟨before, line, after, cut, hh, rfl⟩
    refine ⟨(line, before.length), ?_, hh, by rw [hnext cut]⟩
    rw [List.mk_mem_zipIdx_iff_getElem?, show listing.lines.toList = _ from cut]
    simp

theorem Cut.sites_eq {before after : List Line} {line : Line} (cut : listing.Cut before line after)
    (distinct : listing.Distinct) :
    listing.sites[line.handle]? = some ⟨line.instruction, after.head?.map (·.handle)⟩ :=
  (sites_eq_some distinct).mpr ⟨before, line, after, cut, rfl, rfl⟩

theorem contains_sites (distinct : listing.Distinct) {handle : Handle} :
    listing.sites.contains handle = true ↔ handle ∈ listing.handles := by
  rw [← Std.HashMap.isSome_getElem?_eq_contains, Option.isSome_iff_exists]
  constructor
  · rintro ⟨site, hs⟩
    obtain ⟨before, line, after, cut, rfl, -⟩ := (sites_eq_some distinct).mp hs
    exact List.mem_map_of_mem cut.mem
  · intro hm
    obtain ⟨before, line, after, cut, rfl⟩ := exists_cut hm
    exact ⟨_, cut.sites_eq distinct⟩

/-- What is visited after a site of a regular listing is in the stream. -/
theorem Regular.successors_live (regular : listing.Regular pool) {handle : Handle} {site : Site}
    (h : listing.sites[handle]? = some site) (depth after : Nat) :
    ∀ entry ∈ site.successors depth after, entry.1 ∈ listing.handles := by
  obtain ⟨before, line, following, cut, -, rfl⟩ := (sites_eq_some regular.distinct).mp h
  have hnext : ∀ next ∈ following.head?.map (·.handle), next ∈ listing.handles := by
    intro next hn
    obtain ⟨other, ho, rfl⟩ := Option.map_eq_some_iff.mp hn
    obtain ⟨rest, rfl⟩ := List.head?_eq_some_iff.mp ho
    exact List.mem_map_of_mem cut.forth.mem
  have htargets : ∀ target ∈ line.instruction.targets, target ∈ listing.handles :=
    fun target ht => regular.closed target (.target cut.mem ht)
  intro entry hm
  unfold Site.successors at hm
  split at hm
  case h_1 target hi =>
    rcases List.mem_append.mp hm with hm | hm
    · obtain ⟨next, hn, rfl⟩ := List.mem_map.mp hm
      exact hnext next (Option.mem_toList.mp hn)
    · rw [List.mem_singleton.mp hm]
      exact htargets target
        (by rw [show line.instruction = _ from hi]; exact List.mem_singleton_self _)
  case h_2 =>
    obtain ⟨next, hn, rfl⟩ := List.mem_map.mp hm
    rcases List.mem_append.mp hn with hn | hn
    · split at hn
      · exact hnext next (Option.mem_toList.mp hn)
      · cases hn
    · exact htargets next (List.mem_reverse.mp hn)

/-! ## The walk under new handles -/

def Site.rename (f : Handle → Handle) (site : Site) : Site :=
  ⟨site.instruction.mapTargets f, site.next.map f⟩

theorem Site.successors_rename (f : Handle → Handle) (site : Site) (depth after : Nat) :
    (site.rename f).successors depth after =
      (site.successors depth after).map fun entry => (f entry.1, entry.2) := by
  obtain ⟨code, next⟩ := site
  have hnext : (next.map f).toList = next.toList.map f := by cases next <;> rfl
  by_cases hsubroutine : ∃ target, code = .subroutine target
  · obtain ⟨target, rfl⟩ := hsubroutine
    simp [successors, rename, Instruction.mapTargets, hnext]
  · have heq : ∀ (code : Instruction Handle) (next : Option Handle),
        (¬ ∃ target, code = .subroutine target) → (Site.mk code next).successors depth after =
          ((if code.fallsThrough then next.toList else []) ++ code.targets.reverse).map
            (·, after) := by
      intro code next hno
      unfold successors
      split
      case h_1 target hi => exact absurd ⟨target, hi⟩ hno
      case h_2 => rfl
    have hmapped : ¬ ∃ target, code.mapTargets f = .subroutine target := by
      rintro ⟨target, ht⟩
      cases code <;> cases ht
      exact hsubroutine ⟨_, rfl⟩
    rw [rename, heq _ _ hmapped, heq _ _ hsubroutine, Instruction.fallsThrough_mapTargets,
      Instruction.targets_mapTargets, hnext]
    cases code.fallsThrough <;> simp [Function.comp_def]

theorem Renames.sites_eq (h : Renames f listing renamed) (distinct : listing.Distinct)
    {handle : Handle} (live : handle ∈ listing.handles) :
    renamed.sites[f handle]? = listing.sites[handle]?.map (Site.rename f) := by
  obtain ⟨before, line, after, cut, rfl⟩ := exists_cut live
  obtain ⟨before', line', after', cut', ⟨hhandle, hcode⟩, -, hafter⟩ := h.cut cut
  have hnext : after'.head?.map (·.handle) = (after.head?.map (·.handle)).map f := by
    cases hafter with
    | nil => rfl
    | cons hline _ => exact congrArg some hline.1
  rw [cut.sites_eq distinct, ← hhandle, cut'.sites_eq (h.distinct distinct), hcode, hnext]
  rfl

section

variable {sites pending : Std.HashMap Handle Site} {handle : Handle} {depth deepest : Nat}
  {agenda : List (Handle × Nat)}

theorem getElem?_of_erase {other : Handle} {site : Site}
    (h : (pending.erase handle)[other]? = some site) : pending[other]? = some site := by
  rw [Std.HashMap.getElem?_erase] at h
  split at h
  · cases h
  · exact h

theorem walk_visited (absent : pending[handle]? = none) (known : sites.contains handle = true) :
    walk sites pool pending ((handle, depth) :: agenda) deepest =
      walk sites pool pending agenda deepest := by
  rw [walk]
  split
  case h_1 => rw [if_pos known]
  case h_2 site hsome => cases absent.symm.trans hsome

theorem walk_pending {site : Site} {effect : StackEffect} (present : pending[handle]? = some site)
    (known : site.instruction.stackEffect pool = .ok effect) (enough : effect.pops ≤ depth) :
    walk sites pool pending ((handle, depth) :: agenda) deepest =
      walk sites pool (pending.erase handle)
        (site.successors depth (depth - effect.pops + effect.pushes) ++ agenda)
        (max (max deepest depth) (depth - effect.pops + effect.pushes)) := by
  rw [walk]
  split
  case h_1 hnone => cases present.symm.trans hnone
  case h_2 site' hsome =>
    cases present.symm.trans hsome
    simp only [known, if_neg (Nat.not_lt.mpr enough)]

end

/-- The walk goes the same way under new handles. What is pending under the new handles is what is
pending under the old ones. -/
theorem walk_renames (regular : listing.Regular pool) (h : Renames f listing renamed)
    (extended : pool.Extends grown) {pending pending' : Std.HashMap Handle Site}
    {agenda : List (Handle × Nat)} {deepest result : Nat}
    (hsites : ∀ (handle : Handle) (site : Site), pending[handle]? = some site →
      listing.sites[handle]? = some site)
    (hpending : ∀ handle ∈ listing.handles,
      pending'[f handle]? = pending[handle]?.map (Site.rename f))
    (live : ∀ entry ∈ agenda, entry.1 ∈ listing.handles)
    (hwalk : walk listing.sites pool pending agenda deepest = .ok result) :
    walk renamed.sites grown pending' (agenda.map fun entry => (f entry.1, entry.2)) deepest =
      .ok result := by
  fun_induction walk listing.sites pool pending agenda deepest generalizing pending' with
  | case1 pending deepest =>
    cases hwalk
    rw [List.map_nil, walk]
  | case2 pending deepest handle depth agenda hfound hcontains ih =>
    obtain ⟨hlive, hrest⟩ := List.forall_mem_cons.mp live
    have hfound' := hpending handle hlive
    rw [hfound, Option.map_none] at hfound'
    have hcontains' : renamed.sites.contains (f handle) = true := by
      rw [contains_sites (h.distinct regular.distinct), h.handles_eq]
      exact List.mem_map_of_mem hlive
    rw [List.map_cons, walk_visited hfound' hcontains']
    exact ih hsites hpending hrest hwalk
  | case3 pending deepest handle depth agenda hfound hcontains => cases hwalk
  | case4 pending deepest handle depth agenda site hfound e he => cases hwalk
  | case5 pending deepest handle depth agenda site hfound effect he hunder => cases hwalk
  | case6 pending deepest handle depth agenda site hfound effect he hunder after =>
    rename_i ih
    obtain ⟨hlive, hrest⟩ := List.forall_mem_cons.mp live
    have hfound' := hpending handle hlive
    rw [hfound, Option.map_some] at hfound'
    have hsites' : ∀ (other : Handle) (site : Site), (pending.erase handle)[other]? = some site →
        listing.sites[other]? = some site :=
      fun other site hs => hsites other site (getElem?_of_erase hs)
    have hpending' : ∀ other ∈ listing.handles, (pending'.erase (f handle))[f other]? =
        (pending.erase handle)[other]?.map (Site.rename f) := by
      intro other ho
      rw [Std.HashMap.getElem?_erase, Std.HashMap.getElem?_erase]
      by_cases he : handle = other
      · rw [he, if_pos (beq_self_eq_true _), if_pos (beq_self_eq_true _)]
        rfl
      · have hne : f handle ≠ f other := fun hf =>
          he (h.injective _ _ (Renames.mentions_of_mem_handles hlive)
            (Renames.mentions_of_mem_handles ho) hf)
        rw [if_neg (by simpa using hne), if_neg (by simpa using he), hpending other ho]
    have hlive' : ∀ entry ∈ site.successors depth after ++ agenda, entry.1 ∈ listing.handles := by
      intro entry hm
      rcases List.mem_append.mp hm with hm | hm
      · exact regular.successors_live (hsites handle site hfound) depth after entry hm
      · exact hrest entry hm
    have hnext := ih hsites' hpending' hlive' hwalk
    rw [List.map_append, ← Site.successors_rename] at hnext
    have heffect : (site.rename f).instruction.stackEffect grown = .ok effect :=
      Instruction.stackEffect_mapTargets extended f he
    rw [List.map_cons, walk_pending hfound' heffect (Nat.le_of_not_lt hunder)]
    exact hnext

theorem head?_eq_head? (listing : Listing) :
    listing.head? = listing.lines.toList.head?.map (·.handle) := by
  rw [head?, ← Array.getElem?_toList, List.head?_eq_getElem?]

/-- Where the walk starts, each with its depth. -/
def entryPoints (listing : Listing) : List (Handle × Nat) :=
  (listing.handlers.toList.reverse.map fun entry => (entry.handler, 1)) ++
    listing.head?.toList.map (·, 0)

theorem Regular.entryPoints_live (regular : listing.Regular pool) :
    ∀ entry ∈ listing.entryPoints, entry.1 ∈ listing.handles := by
  intro entry hm
  rcases List.mem_append.mp hm with hm | hm
  · obtain ⟨handler, hh, rfl⟩ := List.mem_map.mp hm
    exact regular.closed _ (.handler (List.mem_reverse.mp hh) (by simp [ExceptionHandler.handles]))
  · obtain ⟨handle, hh, rfl⟩ := List.mem_map.mp hm
    rw [Option.mem_toList, head?_eq_head?] at hh
    obtain ⟨line, hl, rfl⟩ := Option.map_eq_some_iff.mp hh
    exact List.mem_map_of_mem (List.mem_of_mem_head? hl)

theorem Renames.entryPoints_eq (h : Renames f listing renamed) :
    renamed.entryPoints = listing.entryPoints.map fun entry => (f entry.1, entry.2) := by
  have hhead : renamed.head?.toList = listing.head?.toList.map f := by
    rw [head?_eq_head?, head?_eq_head?]
    have hlines := h.lines
    generalize listing.lines.toList = lines at hlines
    generalize renamed.lines.toList = lines' at hlines
    cases hlines with
    | nil => rfl
    | cons hline _ => exact congrArg (fun handle => [handle]) hline.1
  rw [entryPoints, entryPoints, h.handlers, hhead]
  simp [Function.comp_def, ExceptionHandler.rename]

/-- The stack is as deep under new handles and in a pool that has grown. -/
theorem maxStack_renames (regular : listing.Regular pool) (h : Renames f listing renamed)
    (extended : pool.Extends grown) {depth : UInt16} (hm : listing.maxStack pool = .ok depth) :
    renamed.maxStack grown = .ok depth := by
  obtain ⟨deepest, hwalk, hdepth⟩ := Outcome.bind_eq_ok.mp hm
  refine Outcome.bind_eq_ok.mpr ⟨deepest, ?_, hdepth⟩
  change walk _ _ _ renamed.entryPoints 0 = _
  rw [h.entryPoints_eq]
  exact walk_renames regular h extended (fun _ _ hs => hs)
    (fun handle hlive => h.sites_eq regular.distinct hlive) regular.entryPoints_live hwalk

theorem maxLocals_renames (h : Renames f listing renamed) (slots : Nat) :
    renamed.maxLocals slots = listing.maxLocals slots := by
  have hlines := h.lines
  rw [maxLocals, maxLocals, ← Array.foldl_toList, ← Array.foldl_toList]
  generalize listing.lines.toList = lines at hlines
  generalize renamed.lines.toList = lines' at hlines
  induction hlines generalizing slots with
  | nil => rfl
  | cons hline _ ih =>
    rw [List.foldl_cons, List.foldl_cons, hline.2, Instruction.localSlot?_mapTargets]
    exact ih _

end Listing

end BytecodeFold

import BytecodeFold.Proofs.Codec.Sizes
import BytecodeFold.Proofs.Failure
import BytecodeFold.Proofs.Fold.Run

/-!
# Room in the code array

In code without switches every line keeps the place where it was read, and has room there up to the
place of the next line. Layouts and folds respect that: a jump is only widened if it was wide when
it was read, and what a fold leaves has room in the place of what it replaces. Lines with room are
never further apart than their places, so they can always be laid out and written, in no more bytes
than they were read from.
-/

namespace BytecodeFold

theorem Instruction.size_of_not_isSwitch {τ : Type} {code : Instruction τ}
    (h : code.isSwitch = false)
    (offset offset' : Nat) (long : Bool) : code.size offset long = code.size offset' long := by
  cases code with
  | switch kind default cases => cases h
  | _ => rfl

theorem Instruction.size_le_five {τ : Type} {code : Instruction τ} (h : code.isJump = true)
    (offset : Nat) (long : Bool) : code.size offset long ≤ 5 := by
  cases code with
  | jump target | subroutine target => cases long <;> simp [size]
  | _ => cases h

theorem Instruction.straight_of_isIntPush {τ : Type} {code : Instruction τ}
    (h : code.isIntPush = true) :
    code.isSwitch = false ∧ code.isJump = false := by
  cases code <;> first | exact ⟨rfl, rfl⟩ | cases h

/-- The line has room from its place up to another one. Every target is within the reach of two
bytes by the places, or else the line is a jump that has room for its long form. -/
structure Line.HasRoom (start : Handle → Nat) (line : Line) (stop : Nat) : Prop where
  straight : line.instruction.isSwitch = false
  size_le : ∀ offset, start line.handle + line.instruction.size offset line.long ≤ stop
  reach : ∀ target ∈ line.instruction.targets,
    fitsSigned 16 ((start target : Int) - (start line.handle : Int)) = true ∨
      line.instruction.isJump = true ∧ start line.handle + 5 ≤ stop

namespace Listing

variable {start : Handle → Nat} {stop offset : Nat} {lines : List Line} {pair other : Line × Nat}

/-- Where the first of these lines has its place, or where the code stops if there is none. -/
def startOf (start : Handle → Nat) (stop : Nat) : List Line → Nat
  | [] => stop
  | line :: _ => start line.handle

/-- Every line has room up to the place of the next. -/
def Roomy (start : Handle → Nat) (stop : Nat) : List Line → Prop
  | [] => True
  | line :: rest => line.HasRoom start (startOf start stop rest) ∧ Roomy start stop rest

theorem startOf_append (lines rest : List Line) :
    startOf start stop (lines ++ rest) = startOf start (startOf start stop rest) lines := by
  cases lines <;> rfl

theorem roomy_append {rest : List Line} : Roomy start stop (lines ++ rest) ↔
    Roomy start (startOf start stop rest) lines ∧ Roomy start stop rest := by
  induction lines with
  | nil => simp [Roomy]
  | cons line lines ih => rw [List.cons_append, Roomy, Roomy, ih, startOf_append, and_assoc]

namespace Roomy

/-- Lines that start no later than their place end no later than the code. -/
theorem lengthFrom_le (h : Roomy start stop lines) (hle : offset ≤ startOf start stop lines) :
    lengthFrom offset lines ≤ stop := by
  induction lines generalizing offset with
  | nil => exact hle
  | cons line rest ih =>
    obtain ⟨hline, hrest⟩ := h
    have hsize := hline.size_le offset
    have hplace : offset ≤ start line.handle := hle
    exact ih hrest (by omega)

theorem length_le (h : Roomy start stop lines) :
    startOf start stop lines + lines.length ≤ stop := by
  induction lines with
  | nil => exact Nat.le_refl _
  | cons line rest ih =>
    obtain ⟨hline, hrest⟩ := h
    have hsize := hline.size_le 0
    have hpos := line.instruction.size_pos 0 line.long
    have htail := ih hrest
    rw [List.length_cons, startOf]
    omega

/-- A line of the stretch has room in all of it. -/
theorem size_le_of_mem (h : Roomy start stop lines) {line : Line} (hm : line ∈ lines) :
    startOf start stop lines + line.instruction.size offset line.long ≤ stop := by
  induction lines with
  | nil => cases hm
  | cons head rest ih =>
    obtain ⟨hhead, hrest⟩ := h
    have hsize := hhead.size_le offset
    rcases List.mem_cons.mp hm with rfl | hm
    · have htail := hrest.length_le
      rw [startOf]
      omega
    · have htail := ih hrest hm
      rw [startOf]
      omega

theorem hasRoom (h : Roomy start stop lines) (hm : pair ∈ placedFrom offset lines) :
    ∃ next, pair.1.HasRoom start next := by
  induction lines generalizing offset with
  | nil => cases hm
  | cons line rest ih =>
    rcases List.mem_cons.mp hm with rfl | hm
    · exact ⟨_, h.1⟩
    · exact ih h.2 hm

/-- A line is not further from the start of the lines than its place is. -/
theorem offset_le (h : Roomy start stop lines) (hm : pair ∈ placedFrom offset lines) :
    pair.2 + startOf start stop lines ≤ offset + start pair.1.handle := by
  induction lines generalizing offset with
  | nil => cases hm
  | cons line rest ih =>
    rcases List.mem_cons.mp hm with rfl | hm
    · exact Nat.le_refl _
    · have hsize := h.1.size_le offset
      have htail := ih h.2 hm
      rw [startOf]
      omega

/-- Two lines are not further apart than their places. -/
theorem distance_le (h : Roomy start stop lines) (hp : pair ∈ placedFrom offset lines)
    (ho : other ∈ placedFrom offset lines) :
    (pair.2 ≤ other.2 ∧ other.2 + start pair.1.handle ≤ pair.2 + start other.1.handle) ∨
      (other.2 ≤ pair.2 ∧ pair.2 + start other.1.handle ≤ other.2 + start pair.1.handle) := by
  induction lines generalizing offset with
  | nil => cases hp
  | cons line rest ih =>
    have hsize := h.1.size_le offset
    rcases List.mem_cons.mp hp with rfl | hp
    · rcases List.mem_cons.mp ho with rfl | ho
      · exact .inl ⟨Nat.le_refl _, Nat.le_refl _⟩
      · have hlow := (bounds_of_mem_placedFrom ho).1
        have hhigh := offset_le h.2 ho
        dsimp only at hlow hhigh ⊢
        exact .inl ⟨by omega, by omega⟩
    · rcases List.mem_cons.mp ho with rfl | ho
      · have hlow := (bounds_of_mem_placedFrom hp).1
        have hhigh := offset_le h.2 hp
        dsimp only at hlow hhigh ⊢
        exact .inr ⟨by omega, by omega⟩
      · exact ih h.2 hp ho

theorem near (h : Roomy start stop lines) (hp : pair ∈ placedFrom offset lines)
    (ho : other ∈ placedFrom offset lines)
    (hfits : fitsSigned 16 ((start other.1.handle : Int) - (start pair.1.handle : Int)) = true) :
    fitsSigned 16 ((other.2 : Int) - (pair.2 : Int)) = true := by
  rw [fitsSigned_sixteen_iff] at hfits ⊢
  rcases h.distance_le hp ho with ⟨hle, hdistance⟩ | ⟨hle, hdistance⟩
  · exact ⟨by omega, by omega⟩
  · exact ⟨by omega, by omega⟩

end Roomy

/-! ## Layouts -/

/-- A line keeps its room when it is widened, if nothing that is near by the places is far by the
offsets. -/
theorem hasRoom_of_widen {offsets : Handle → Option Nat} {line wider : Line} {next : Nat}
    (room : line.HasRoom start next)
    (near : ∀ target ∈ line.instruction.targets, ∀ place', offsets target = some place' →
      fitsSigned 16 ((start target : Int) - (start line.handle : Int)) = true →
      fitsSigned 16 ((place' : Int) - (offset : Int)) = true)
    (h : widen offsets line offset = .ok wider) : wider.HasRoom start next := by
  obtain ⟨far, hfar, h⟩ := Outcome.bind_eq_ok.mp h
  cases h
  refine ⟨room.straight, fun offset' => ?_, room.reach⟩
  cases hany : far.any id with
  | false =>
    rw [Bool.or_false]
    exact room.size_le offset'
  | true =>
    obtain ⟨answer, hm, ha⟩ := List.any_eq_true.mp hany
    obtain ⟨target, ht, hanswer⟩ := Outcome.exists_of_mem_right (Outcome.list_mapM_eq_ok.mp hfar) hm
    have ha : answer = true := ha
    rw [ha] at hanswer
    have hjump := (Bool.and_eq_true_iff.mp (tooFar_eq_true hanswer)).1
    -- the target is too far by the offsets, so by the places as well, and the long form has room
    have hroom : start line.handle + 5 ≤ next := by
      rcases room.reach target ht with hfits | ⟨-, hroom⟩
      · unfold tooFar at hanswer
        split at hanswer
        · cases hanswer
        case h_2 place' hp =>
          rw [if_pos (near target ht place' hp hfits)] at hanswer
          cases hanswer
      · exact hroom
    have hsize := Instruction.size_le_five hjump offset' (line.long || true)
    dsimp only
    omega

theorem Roomy.of_forall₂ {lines' : List Line} (h : Roomy start stop lines)
    (hlines : List.Forall₂ (fun line line' => line'.handle = line.handle ∧
      ∀ next, line.HasRoom start next → line'.HasRoom start next) lines lines') :
    Roomy start stop lines' := by
  have hstart : ∀ {lines lines' : List Line}, List.Forall₂ (fun line line' : Line =>
      line'.handle = line.handle ∧ ∀ next, line.HasRoom start next → line'.HasRoom start next)
      lines lines' → startOf start stop lines' = startOf start stop lines := by
    intro lines lines' h
    cases h with
    | nil => rfl
    | cons hline _ => rw [startOf, startOf, hline.1]
  induction hlines with
  | nil => trivial
  | cons hline htail ih => exact ⟨hstart htail ▸ hline.2 _ h.1, ih h.2⟩

variable {listing laid : Listing} {pool : ConstantPool}

/-- Lines with room are laid out without being too long. -/
theorem Regular.succeeds_layoutRound (regular : listing.Regular pool)
    (roomy : Roomy start stop listing.lines.toList) (short : stop ≤ 65535) :
    Succeeds (layoutRound listing.handlers listing.lines) := by
  refine regular.failsOnly_layoutRound (fun hlong => ?_)
    fun pair hm target ht place' hp hfar hjump => ?_
  · have hlength := roomy.lengthFrom_le (Nat.zero_le _)
    omega
  · obtain ⟨line, ho, rfl⟩ := (offsets_eq_some regular.distinct).mp hp
    obtain ⟨next, room⟩ := roomy.hasRoom hm
    rcases room.reach _ ht with hfits | ⟨hjump', -⟩
    · rw [roomy.near hm ho hfits] at hfar
      cases hfar
    · rw [hjump] at hjump'
      cases hjump'

theorem Roomy.layoutRound {handlers : Array ExceptionHandler} {lines wider : Array Line}
    {length : Nat}
    (roomy : Roomy start stop lines.toList) (distinct : (lines.toList.map (·.handle)).Nodup)
    (h : layoutRound handlers lines = .ok (length, wider)) : Roomy start stop wider.toList := by
  obtain ⟨-, -, hwide, -⟩ := layoutRound_eq_ok.mp h
  refine roomy.of_forall₂ ?_
  conv => arg 2; rw [← map_placedFrom 0 lines.toList]
  refine List.forall₂_map_left_iff.mpr (Outcome.forall₂_imp_of_mem hwide ?_)
  intro pair hm line hwiden
  obtain ⟨long, rfl⟩ := widen_eq_ok hwiden
  refine ⟨rfl, fun next room => hasRoom_of_widen room (fun target ht place' hp hfits => ?_) hwiden⟩
  obtain ⟨other, ho, rfl⟩ := (offsets_eq_some distinct).mp hp
  have hnear := roomy.near hm ho hfits
  exact hnear

theorem Roomy.layoutLines {handlers : Array ExceptionHandler} {lines : Array Line}
    (roomy : Roomy start stop lines.toList) (short : stop ≤ 65535)
    (regular : (Listing.mk lines 0 handlers false).Regular pool) :
    Succeeds (layoutLines handlers lines).1 ∧
      Roomy start stop (layoutLines handlers lines).2.toList := by
  fun_induction Listing.layoutLines handlers lines with
  | case1 lines e he =>
    have hround := regular.succeeds_layoutRound roomy short
    exact (hround e he).elim
  | case2 length lines hr => exact ⟨.ok _, roomy⟩
  | case3 lines length wider hr hne ih =>
    exact ih (roomy.layoutRound regular.distinct hr) (regular.sameLines (layoutRound_same hr) rfl)

/-- A listing with room can be laid out, in no more bytes than there are, and keeps its room. -/
theorem Roomy.layout (roomy : Roomy start stop listing.lines.toList) (short : stop ≤ 65535)
    (regular : listing.Regular pool) : ∃ length laid, listing.layout = (.ok length, laid) ∧
      length ≤ stop ∧ Roomy start stop laid.lines.toList := by
  obtain ⟨hsucceeds, hroomy⟩ := roomy.layoutLines short (regular.sameLines (.refl _) rfl)
  obtain ⟨length, hlength⟩ := hsucceeds.exists_ok
  have hlines : Listing.layoutLines listing.handlers listing.lines =
      (.ok length, (Listing.layoutLines listing.handlers listing.lines).2) := Prod.ext hlength rfl
  refine ⟨length, _, by rw [Listing.layout, hlines], ?_, hroomy⟩
  rw [(layoutRound_eq_ok.mp (layoutLines_settled hlines)).1]
  exact hroomy.lengthFrom_le (Nat.zero_le _)

/-! ## Folds -/

/-- What a fold leaves has room in the place of what it replaces. -/
theorem Roomy.replaced (roomy : Roomy start stop listing.lines.toList) {folded : Listing}
    {grown : ConstantPool} {before : List Line} {first : Line} {segment after : List Line}
    {code : Instruction Handle} (replaced : listing.Replaced before first segment after code folded)
    (replacement : Replacement pool grown segment code) :
    Roomy start stop folded.lines.toList := by
  rw [show listing.lines.toList = _ from replaced.cut, ← List.cons_append, roomy_append,
    roomy_append] at roomy
  obtain ⟨hbefore, hsegment, hafter⟩ := roomy
  rw [show folded.lines.toList = _ from replaced.result_cut, roomy_append]
  refine ⟨hbefore, ⟨?_, fun offset => ?_, ?_⟩, hafter⟩
  · cases replacement with
    | constant wide added long => rfl
    | selected mem push pool_eq => exact (Instruction.straight_of_isIntPush push).1
  · cases replacement with
    | @constant value index wide added long =>
      have hlength := hsegment.length_le
      have hsize : (Instruction.loadConstant index wide : Instruction Handle).size offset false ≤
          3 := by
        rw [Instruction.size]
        split <;> omega
      rw [List.length_cons, startOf] at hlength
      dsimp only
      omega
    | @selected line mem push pool_eq =>
      rw [Instruction.size_of_not_isJump (Instruction.straight_of_isIntPush push).2 offset false
        line.long]
      exact hsegment.size_le_of_mem (List.mem_cons_of_mem _ mem)
  · dsimp only
    rw [replacement.targets]
    intro target hm
    cases hm

/-! ## Code that was read -/

/-- Lines that were read have room where they stood. -/
theorem roomy_of_formats {table : Handle → Option Nat} {items : List (Nat × Instruction Nat)}
    (hlines : List.Forall₂ (ReadsAs table) items lines) {bytes : List UInt8}
    (hformats : Decoding.Formats pool offset items bytes)
    (straight : ∀ line ∈ lines, line.instruction.isSwitch = false) :
    Roomy (Encoding.placeOf table) (offset + bytes.length) lines ∧
      startOf (Encoding.placeOf table) (offset + bytes.length) lines = offset := by
  induction hlines generalizing offset bytes with
  | nil =>
    rw [show bytes = [] from hformats]
    exact ⟨trivial, rfl⟩
  | @cons item line items lines hline _ ih =>
    obtain ⟨chunk, rest, rfl, hformat, hrest, rfl⟩ := hformats
    obtain ⟨hstraight, hothers⟩ := List.forall_mem_cons.mp straight
    obtain ⟨hroomy, hstart⟩ := ih hrest hothers
    rw [List.length_append, ← Nat.add_assoc]
    have hplace : Encoding.placeOf table line.handle = item.1 := by
      rw [Encoding.placeOf, hline.offset_eq, Option.getD_some]
    obtain ⟨hsize, hreach⟩ := hformat.hasRoom
    rw [← hline.instruction_eq] at hsize hreach
    refine ⟨⟨⟨hstraight, fun offset => ?_, fun target ht => ?_⟩, hroomy⟩, hplace⟩
    · rw [Instruction.size_mapTargets] at hsize
      rw [hstart, hplace, hline.short, Instruction.size_of_not_isSwitch hstraight offset item.1]
      omega
    · rw [hstart, hplace]
      rw [Instruction.targets_mapTargets, Instruction.isSwitch_mapTargets,
        Instruction.isJump_mapTargets, hstraight] at hreach
      rcases hreach _ (List.mem_map_of_mem ht) with hswitch | hfits | ⟨hjump, hroom⟩
      · cases hswitch
      · exact .inl hfits
      · exact .inr ⟨hjump, by omega⟩

/-- A listing of code without switches has room in the code. -/
theorem roomy_of_decode {code : Code} (decoded : code.decode pool = .ok listing)
    (straight : ∀ line ∈ listing.lines.toList, line.instruction.isSwitch = false) :
    ∃ start, Roomy start code.bytes.size listing.lines.toList := by
  obtain ⟨items, instructions, handlers, ⟨hstreams, hresolved, -⟩, rfl⟩ :=
    Code.decode_eq_ok.mp decoded
  have hformats : Decoding.Formats pool 0 items code.bytes.toList :=
    Decoding.formats_of_streams hstreams (Nat.zero_le _)
  have hreads := readsAs_of_locates (Decoding.locates_starts items) hformats.nodup hresolved
  have hroomy := (roomy_of_formats hreads hformats straight).1
  rw [Nat.zero_add, Array.length_toList] at hroomy
  exact ⟨_, hroomy⟩

end Listing

end BytecodeFold

import Pseudocode.Proofs.Run.Operations

/-!
# What a script calls is safe

The routines that every script knows, those of types and attributes of
values, and the way arguments become values of parameters. With tame
arguments they keep the heap sound and their results are tame.

The host itself is not tame, but the acts that are no reports are: a
script that asks it for anything but its `trace` gets a tame value.
-/

namespace Pseudocode.Run

open Text Script List

variable {args values : List Value} {h : Heap}

namespace Realm

open Regime (Sound)

variable {W : Type} [Regime W] {w : W}
variable {v u : Value} {name routine : Text} {a : Nat} {params : List (Param Expr)}

/-! ### Builtins -/

theorem mapIdxM_makes {α β : Type} {R : W → β → Prop} {f : Nat → α → Eval β} {xs : List α}
    (hf : ∀ w', w ≤ w' → ∀ i, ∀ x ∈ xs, Makes w' (f i x) R)
    (hmono : ∀ w' w'' b, w' ≤ w'' → R w' b → R w'' b) :
    Makes w (xs.mapIdxM f) fun w' ys => ∀ y ∈ ys, R w' y := by
  have hgo : ∀ (xs : List α) (w : W) (done : Array β), (∀ y ∈ done, R w y) →
      (∀ w', w ≤ w' → ∀ i, ∀ x ∈ xs, Makes w' (f i x) R) →
        Makes w (mapIdxM.go f xs done) fun w' ys => ∀ y ∈ ys, R w' y := by
    intro xs
    induction xs with
    | nil => exact fun w done hdone _ => .pure (by simpa using hdone)
    | cons x rest ih =>
      intro w done hdone hf
      refine (hf w (le_refl w) done.size x (by simp)).bind fun w₁ h₁ y hy => ?_
      refine ih w₁ (done.push y) ?_ fun w' hw i z hz =>
        hf w' (le_trans h₁ hw) i z (by simp [hz])
      intro z hz
      rcases Array.mem_push.mp hz with hz | rfl
      · exact hmono _ _ z h₁ (hdone z hz)
      · exact hy
  exact hgo xs w #[] (by simp) hf

theorem tame_extreme {op : CompareOp} {best : Value} (hbest : Tame w best)
    (hvalues : AllTame w values) (hv : h.extreme op best values = .ok v) : Tame w v := by
  induction values generalizing best with
  | nil =>
    cases hv
    exact hbest
  | cons u rest ih =>
    rw [Heap.extreme] at hv
    have hrest : AllTame w rest := fun u hu => hvalues u (by simp [hu])
    obtain ⟨before, -, hv⟩ := exists_of_bind_eq_ok hv
    cases before with
    | true => exact ih (hvalues u (by simp)) hrest hv
    | false => exact ih hbest hrest hv

theorem extreme_safe {op : CompareOp} (h : AllTame w values) : Safe w (match values with
      | [] => throw (.other .value (name ++ "() arg is an empty sequence"))
      | v :: rest => do Eval.ofExcept ((← get).extreme op v rest)) (Tame w) := by
  split
  · exact .fail
  · next v rest =>
    refine .get_bind fun heap hs => .ofExcept fun w hw => ?_
    exact tame_extreme (h v (by simp)) (fun u hu => h u (by simp [hu])) hw

theorem extremeOf_safe {op : CompareOp} (h : AllTame w args) :
    Safe w (extremeOf op name args) (Tame w) := by
  unfold extremeOf
  split
  · exact .fail_bind
  · next v => exact (valuesOf_safe (h v (by simp))).bind fun _ => extreme_safe
  · exact extreme_safe h

theorem mem_insertSorted {sorted : List Value}
    (hs : h.insertSorted v values = .ok sorted) : ∀ w ∈ sorted, w = v ∨ w ∈ values := by
  induction values generalizing sorted with
  | nil =>
    cases hs
    simp
  | cons u rest ih =>
    rw [Heap.insertSorted] at hs
    obtain ⟨before, -, hs⟩ := exists_of_bind_eq_ok hs
    cases before with
    | true =>
      cases hs
      simp
    | false =>
      obtain ⟨sorted', hr, rfl⟩ := exists_of_return_eq_ok hs
      intro w hw
      rcases mem_cons.mp hw with rfl | hw
      · exact .inr (by simp)
      · exact (ih hr w hw).imp id fun hw => by simp [hw]

theorem tame_sort {sorted : List Value} (hvalues : AllTame w values)
    (hs : h.sort values = .ok sorted) : AllTame w sorted := by
  have hfold : ∀ (values done : List Value), AllTame w values → AllTame w done →
      values.foldlM (fun sorted v => h.insertSorted v sorted) done = .ok sorted →
        AllTame w sorted := by
    intro values
    induction values with
    | nil =>
      intro done _ hdone hs
      cases hs
      exact hdone
    | cons v rest ih =>
      intro done hvalues hdone hs
      rw [foldlM_cons] at hs
      obtain ⟨done', hi, hs⟩ := exists_of_bind_eq_ok hs
      refine ih done' (fun u hu => hvalues u (by simp [hu])) (fun w hw => ?_) hs
      rcases mem_insertSorted hi w hw with rfl | hw
      · exact hvalues w (by simp)
      · exact hdone w hw
  exact hfold values [] hvalues (forall_mem_nil _) hs

theorem rounded_safe {places : Option Int} (hv : Tame w v) :
    Safe w (rounded v places) (Tame w) := by
  unfold rounded
  split
  · exact .pure trivial
  · exact .ite (.pure trivial) (.pure trivial)
  · split
    · exact .fail
    · exact .fail
    · exact .pure trivial
  · split
    · exact .ite (.pure hv) (.ite (.pure trivial) (.pure trivial))
    · exact .pure hv
  · exact .fail

theorem sumOf_makes {start : Value} (hstart : Tame w start)
    (hvalues : AllTame w values) : Makes w (sumOf start values) Tame := by
  unfold sumOf
  split
  · exact .fail
  · exact .foldlM hstart fun _ hw a ha b hb => binary_makes ha ((hvalues b hb).mono hw)

theorem exists_of_mem_heads {rows : List (List Value)} {heads : List Value}
    (h : rows.mapM head? = some heads) (hv : v ∈ heads) : ∃ row ∈ rows, v ∈ row := by
  induction rows generalizing heads with
  | nil =>
    cases h
    cases hv
  | cons row rest ih =>
    simp only [mapM_cons, Option.bind_eq_bind, Option.bind_eq_some_iff, Option.pure_def,
      Option.some.injEq] at h
    obtain ⟨first, hfirst, others, hothers, rfl⟩ := h
    rcases mem_cons.mp hv with rfl | hv
    · exact ⟨row, by simp, mem_of_mem_head? hfirst⟩
    · obtain ⟨row', hrow', hv⟩ := ih hothers hv
      exact ⟨row', by simp [hrow'], hv⟩

theorem mem_sideBySide {n : Nat} {rows : List (List Value)} {column : List Value}
    (hcolumn : column ∈ sideBySide n rows) (hv : v ∈ column) : ∃ row ∈ rows, v ∈ row := by
  induction n generalizing rows with
  | zero => cases hcolumn
  | succ n ih =>
    rw [sideBySide] at hcolumn
    split at hcolumn
    · next heads hheads =>
      split at hcolumn
      · cases hcolumn
      · rcases mem_cons.mp hcolumn with rfl | hcolumn
        · exact exists_of_mem_heads hheads hv
        · obtain ⟨row, hrow, hv⟩ := ih hcolumn
          obtain ⟨row', hrow', rfl⟩ := mem_map.mp hrow
          exact ⟨row', hrow', mem_of_mem_tail hv⟩
    · cases hcolumn

theorem entriesOf_makes (hv : Tame w v) : Makes w (entriesOf v) TamePairs := by
  unfold entriesOf
  split
  · exact .get_bind fun h hs => .pure (sound_entries hs hv)
  · refine (valuesOf_safe hv).then fun items hitems => ?_
    refine mapIdxM_makes
      (fun w' hw i item hitem => ?_) fun _ _ _ hw hp => ⟨hp.1.mono hw, hp.2.mono hw⟩
    refine .ofSafe ((Safe.tryCatch (valuesOf_safe ((hitems item hitem).mono hw))
      fun _ => .fail).bind fun parts hparts => ?_)
    split
    · exact .pure ⟨hparts _ (by simp), hparts _ (by simp)⟩
    · exact .fail

theorem dictOf_makes {ps : List (Value × Value)} (h : TamePairs w ps) :
    Makes w (dictOf ps) Tame := by
  unfold dictOf
  split
  · exact .fail
  · refine .get_bind fun heap hs => newDict_makes ?_
    refine foldlRecOn (motive := TamePairs w) _ _ (forall_mem_nil _) fun es hes p hp => ?_
    exact tame_assign hes (h p hp).1 (h p hp).2

theorem oneArgument_makes {f : Value → Eval Value} (h : AllTame w args)
    (hf : ∀ v, Tame w v → Makes w (f v) Tame) : Makes w (oneArgument name args f) Tame := by
  unfold oneArgument
  split
  · next v => exact hf v (h v (by simp))
  · exact .fail

theorem optionalArgument_makes {first : Eval Value} {f : Value → Eval Value} (h : AllTame w args)
    (hfirst : Makes w first Tame) (hf : ∀ v, Tame w v → Makes w (f v) Tame) :
    Makes w (optionalArgument name args first f) Tame := by
  unfold optionalArgument
  split
  · exact hfirst
  · next v => exact hf v (h v (by simp))
  · exact .fail

/-! ### Attributes -/

theorem tame_part? (hv : Tame w v) (h : v.part? name = some u) : Tame w u := by
  unfold Value.part? at h
  split at h <;> cases h <;> trivial

theorem mem_of_lookup {α β : Type} [BEq α] [LawfulBEq α] {ps : List (α × β)} {a : α} {b : β}
    (h : ps.lookup a = some b) : (a, b) ∈ ps := by
  induction ps with
  | nil => cases h
  | cons p rest ih =>
    obtain ⟨a', b'⟩ := p
    rw [lookup_cons] at h
    split at h
    · next heq =>
      cases h
      obtain rfl := eq_of_beq heq
      simp
    · simp [ih h]

theorem tame_attribute? (hs : Sound w h) (hv : Tame w v)
    (hu : h.attribute? v name = some u) : Tame w u := by
  unfold Heap.attribute? at hu
  split at hu
  · obtain ⟨act, -, rfl⟩ := Option.map_eq_some_iff.mp hu
    exact act_of_host hv act
  · next a =>
    rcases hc : h.closure? a with _ | c
    · rw [hc] at hu
      cases hu
    · simp only [hc] at hu
      repeat' split at hu
      · cases hu
        trivial
      · cases hu
        trivial
      · exact (sound_closure? hs hv hc).attributes _ (mem_of_lookup hu)
  · split at hu <;> cases hu
    exact hv
  · split at hu
    · cases hu
      exact hv
    · exact tame_part? hv hu

theorem attributeOf_safe (hv : Tame w v) : Safe w (attributeOf v name) (Tame w) := by
  refine .get_bind fun h hs => ?_
  split
  · next hw => exact .pure (tame_attribute? hs hv hw)
  · exact .fail
  · exact .fail

theorem attributeOf_host_safe (hname : ∀ act, HostAct.ofName? name = some act → Act W act) :
    Safe w (attributeOf .host name) (Tame w) := by
  refine .get_bind fun h hs => ?_
  split
  · next hw =>
    obtain ⟨act, hact, rfl⟩ := Option.map_eq_some_iff.mp hw
    exact .pure (hname act hact)
  · exact .fail
  · exact .fail

theorem changeAttributes_safe {f : List (Text × Value) → List (Text × Value)} (ha : Open w a)
    (hf : ∀ ps, (∀ p ∈ ps, Tame w p.2) → ∀ p ∈ f ps, Tame w p.2) :
    Safe w (changeAttributes a f) fun _ => True := by
  refine .get_bind fun h hs => ?_
  split
  · next c hc =>
    have htame := sound_closure? hs ha hc
    exact change_safe ha ⟨htame.admitted, htame.initials, hf _ htame.attributes⟩
  · exact .pure trivial

theorem storeAttribute_safe {new : Value} (hv : Tame w v) (hnew : Tame w new) :
    Safe w (storeAttribute v name new) fun _ => True := by
  unfold storeAttribute
  split
  · refine changeAttributes_safe hv fun ps hps p hp => ?_
    obtain hp | ⟨hp, -⟩ := mem_assign hp
    · exact hps p hp
    · exact hp ▸ hnew
  · exact .fail

theorem deleteAttribute_safe (hv : Tame w v) : Safe w (deleteAttribute v name) fun _ => True := by
  unfold deleteAttribute
  split
  · refine .get_bind fun h hs => .ite (changeAttributes_safe hv fun ps hps p hp => ?_) .fail
    exact hps p (mem_filter.mp hp).1
  · exact .fail

/-- A value that a script may ask for an attribute: a tame one, or the
host for an act that may be known. -/
def Owner (w : W) (name : Text) (v : Value) : Prop :=
  Tame w v ∨ v = .host ∧ ∀ act, HostAct.ofName? name = some act → Act W act

namespace Owner

variable {v : Value} {name : Text}

theorem attributeOf_safe (hv : Owner w name v) : Safe w (attributeOf v name) (Tame w) := by
  rcases hv with hv | ⟨rfl, hname⟩
  · exact Realm.attributeOf_safe hv
  · exact attributeOf_host_safe hname

theorem storeAttribute_safe {new : Value} (hv : Owner w name v) (hnew : Tame w new) :
    Safe w (storeAttribute v name new) fun _ => True := by
  rcases hv with hv | ⟨rfl, -⟩
  · exact Realm.storeAttribute_safe hv hnew
  · exact .fail

theorem deleteAttribute_safe (hv : Owner w name v) :
    Safe w (deleteAttribute v name) fun _ => True := by
  rcases hv with hv | ⟨rfl, -⟩
  · exact Realm.deleteAttribute_safe hv
  · exact .fail

end Owner

/-! ### Calls of builtins and of the routines of types -/

theorem tame_rangeOf (h : rangeOf args = .ok v) : Tame w v := by
  unfold rangeOf at h
  dsimp only [bind, Except.bind] at h
  repeat' split at h
  all_goals cases h
  all_goals trivial

theorem tame_codeOf (h : codeOf v = .ok u) : Tame w u := by
  unfold codeOf at h
  split at h <;> cases h
  trivial

theorem tame_type : Tame w v.type := by
  unfold Value.type
  split <;> trivial

theorem apply_makes {b : Builtin} (h : AllTame w args) : Makes w (b.apply args) Tame := by
  refine .get_bind fun heap hs => ?_
  cases b with
  | object => exact .ite (newMark_safe.then fun _ _ => .pure trivial) .fail
  | bool => exact optionalArgument_makes h (.pure trivial) fun v _ => .pure trivial
  | int | str =>
    exact optionalArgument_makes h (.pure trivial) fun v _ => Safe.any.then fun _ _ => .pure trivial
  | float =>
    refine optionalArgument_makes h (.pure trivial) fun v _ => ?_
    split
    · exact .pure trivial
    · exact Safe.any.then fun _ _ => .ofSafe ofFloat_safe
  | list =>
    refine optionalArgument_makes h (newList_makes (by simp)) fun v hv => ?_
    exact (valuesOf_safe hv).then fun vs hvs => newList_makes (by simpa using hvs)
  | tuple =>
    refine optionalArgument_makes h (newTuple_makes (forall_mem_nil _)) fun v hv => ?_
    split
    · exact .pure hv
    · exact (valuesOf_safe hv).then fun vs hvs => newTuple_makes hvs
  | dict =>
    refine optionalArgument_makes h (newDict_makes (forall_mem_nil _)) fun v hv => ?_
    exact (entriesOf_makes hv).bind fun _ _ ps hps => dictOf_makes hps
  | set =>
    refine optionalArgument_makes h (newSet_makes (forall_mem_nil _)) fun v hv => ?_
    exact (valuesOf_safe hv).then fun vs hvs => newSet_makes hvs
  | range => exact .ofSafe (.ofExcept fun _ => tame_rangeOf)
  | type =>
    dsimp only
    split
    · exact .pure tame_type
    · exact .fail
  | len | repr => exact oneArgument_makes h fun v _ => Safe.any.then fun _ _ => .pure trivial
  | isinstance =>
    dsimp only
    split
    · exact Safe.any.then fun _ _ => .pure trivial
    · exact .fail
  | getattr =>
    dsimp only
    split
    · exact .ofSafe (attributeOf_safe (h _ (by simp)))
    · next v name other =>
      refine .pure ?_
      rcases hw : heap.attribute? v name with _ | w
      · exact h other (by simp)
      · exact tame_attribute? hs (h v (by simp)) hw
    · exact .fail
    · exact .fail
    · exact .fail
  | abs =>
    refine oneArgument_makes h fun v _ => ?_
    split
    · exact .pure trivial
    · exact .ofSafe ofFloat_safe
    · exact .fail
  | min | max => exact .ofSafe (extremeOf_safe h)
  | sum =>
    dsimp only
    split
    · exact (valuesOf_safe (h _ (by simp))).then fun vs hvs => sumOf_makes trivial hvs
    · exact (valuesOf_safe (h _ (by simp))).then fun vs hvs => sumOf_makes (h _ (by simp)) hvs
    · exact .fail
    · exact .fail
  | round =>
    dsimp only
    split
    · exact .ofSafe (rounded_safe (h _ (by simp)))
    · exact .ofSafe (rounded_safe (h _ (by simp)))
    · exact Safe.any.then fun _ _ => .ofSafe (rounded_safe (h _ (by simp)))
    · exact .fail
    · exact .fail
  | ord => exact oneArgument_makes h fun v _ => .ofSafe (.ofExcept fun _ => tame_codeOf)
  | chr => exact oneArgument_makes h fun v _ => Safe.any.then fun _ _ => .ite .fail (.pure trivial)
  | sorted =>
    dsimp only
    split
    · refine (valuesOf_safe (h _ (by simp))).then fun vs hvs => ?_
      refine (Safe.ofExcept fun _ => tame_sort hvs).then fun ws hws => newList_makes ?_
      simpa using hws
    · exact .fail
  | reversed =>
    dsimp only
    split
    · refine (Safe.tryCatch (valuesOf_safe (h _ (by simp))) fun _ => .fail).then fun vs hvs => ?_
      exact newStream_makes fun w hw => hvs w (mem_reverse.mp hw)
    · exact .fail
  | enumerate =>
    dsimp only
    split
    · refine Safe.any.then fun first _ => (valuesOf_safe (h _ (by simp))).then fun vs hvs => ?_
      refine (mapIdxM_makes (fun w' hw i u hu => newTuple_makes ?_)
        fun _ _ _ hw hu => hu.mono hw).bind fun _ _ us hus => newStream_makes hus
      simpa using ⟨trivial, (hvs u hu).mono hw⟩
    · exact .fail
  | zip =>
    refine (Safe.mapM fun v hv => valuesOf_safe (h v hv)).then fun rows hrows => ?_
    refine (Makes.mapM (fun w' hw column hcolumn => newTuple_makes ?_)
      fun _ _ _ hw hu => hu.mono hw).bind fun _ _ us hus => newStream_makes hus
    intro v hv
    obtain ⟨row, hrow, hv⟩ := mem_sideBySide hcolumn hv
    exact (hrows row hrow v hv).mono hw
  | any | all =>
    exact oneArgument_makes h fun v hv => (valuesOf_safe hv).then fun _ _ => .pure trivial
  | divmod =>
    dsimp only
    split
    · refine .guard ((binary_makes (h _ (by simp)) (h _ (by simp))).bind fun w₁ h₁ q hq => ?_)
      refine (binary_makes ((h _ (by simp)).mono h₁) ((h _ (by simp)).mono h₁)).bind ?_
      intro w₂ h₂ r hr
      exact newTuple_makes (by simpa using ⟨hq.mono h₂, hr⟩)
    · exact .fail
  | pow =>
    dsimp only
    split
    · exact binary_makes (h _ (by simp)) (h _ (by simp))
    · exact .fail
    · exact .fail
    · exact .fail
  | callable => exact oneArgument_makes h fun v _ => .pure trivial
  | print => exact .pure trivial

theorem textMethod?_makes {t : Text} (h : AllTame w args) :
    MakesIf w (textMethod? t name args) := by
  have htexts : ∀ ts : List Text, ∀ v ∈ (ts.map Value.str).toArray, Tame w v := by
    intro ts v hv
    obtain ⟨u, -, rfl⟩ := mem_map.mp (mem_toArray.mp hv)
    exact trivial
  unfold textMethod?
  split
  · exact .some (Safe.any.then fun _ _ => .pure trivial)
  split
  · exact .some (Safe.any.then fun _ _ => .pure trivial)
  split
  · exact .some (Safe.any.then fun _ _ => .pure trivial)
  split
  case h_8 =>
    refine .some ?_
    split
    · exact .pure trivial
    · exact .fail
  case h_11 => exact .some (newList_makes (htexts _))
  case h_12 => exact .some (.guard (newList_makes (htexts _)))
  case h_13 =>
    refine .some ((valuesOf_safe (h _ (by simp))).then fun vs _ => ?_)
    refine (mapIdxM_makes (fun _ _ i u _ => ?_)
      fun _ _ _ _ _ => trivial).bind fun _ _ _ _ => .pure trivial
    split
    · exact .pure trivial
    · exact .fail
  case h_18 => exact .none
  all_goals first
    | exact .some (.pure trivial)
    | exact .some .fail

theorem changeCells_safe (ha : Open w a) {f : Array Value → Array Value}
    (hf : ∀ items, (∀ v ∈ items, Tame w v) → ∀ v ∈ f items, Tame w v) :
    Safe w (do
      modify fun h => { h with objects := h.objects.modify a fun
        | .cells items => .cells (f items)
        | o => o }
      return .nothing) (Tame w) := by
  refine (modify_safe ha fun o ho => ?_).bind fun _ _ => .pure trivial
  cases o with
  | cells items => exact hf items ho
  | _ => exact ho

theorem eraseCell_safe (ha : Open w a) (n : Nat) :
    Safe w (do
      modify fun h => { h with objects := h.objects.modify a fun
        | .cells items => .cells (items.eraseIdxIfInBounds n)
        | o => o }
      return .nothing) (Tame w) :=
  changeCells_safe ha fun _ hitems v hv => hitems v (mem_of_mem_eraseIdxIfInBounds hv)

theorem popCell_safe (ha : Open w a) {cells : Array Value} (hcells : ∀ v ∈ cells, Tame w v)
    (i : Int) : Safe w (match position? cells.size i with
      | none => throw (.other .index "pop index out of range")
      | some n => do
        let _ ← (do
          modify fun h => { h with objects := h.objects.modify a fun
            | .cells items => .cells (items.eraseIdxIfInBounds n)
            | o => o }
          return Value.nothing)
        return cells.getD n .nothing) (Tame w) := by
  split
  · exact .fail
  · exact (eraseCell_safe ha _).bind fun _ _ => .pure (tame_getD hcells _)

theorem listMethod?_makes (ha : Open w a)
    (h : AllTame w args) : MakesIf w (listMethod? a name args) := by
  unfold listMethod?
  split
  case h_1 =>
    refine .safe (changeCells_safe ha fun items hitems w hw => ?_)
    rcases Array.mem_push.mp hw with hw | rfl
    · exact hitems w hw
    · exact h w (by simp)
  case h_2 =>
    refine .safe ((valuesOf_safe (h _ (by simp))).bind fun vs hvs => changeCells_safe ha ?_)
    intro items hitems w hw
    exact (Array.mem_append.mp hw).elim (hitems w) fun hw => hvs w (mem_toArray.mp hw)
  case h_3 =>
    refine .safe (Safe.any.bind fun n _ => (cells_safe ha).bind fun _ _ => changeCells_safe ha ?_)
    intro items hitems w hw
    simp only [Array.mem_append, mem_toArray, mem_singleton] at hw
    rcases hw with (hw | rfl) | hw
    · exact hitems w (mem_of_mem_extract hw)
    · exact h w (by simp)
    · exact hitems w (mem_of_mem_extract hw)
  case h_4 =>
    refine .safe ((cells_safe ha).bind fun cells hcells => .guard ?_)
    split
    · exact popCell_safe ha hcells _
    · exact Safe.any.bind fun i _ => popCell_safe ha hcells i
    · exact .fail_bind
  case h_5 =>
    refine .safe (.bind (Q := fun _ => True) (.get_bind fun _ _ => .pure trivial) fun _ _ => ?_)
    split
    · exact eraseCell_safe ha _
    · exact .fail
  case h_6 =>
    refine .safe (.bind (Q := fun _ => True) (.get_bind fun _ _ => .pure trivial) fun _ _ => ?_)
    split
    · exact .pure trivial
    · exact .get_bind fun heap hs => Safe.any.bind fun _ _ => .fail
  case h_7 => exact .safe (.get_bind fun heap hs => .pure trivial)
  case h_8 => exact .safe (changeCells_safe ha (by simp))
  case h_9 => exact .some ((cells_safe ha).then fun cells hcells => newList_makes hcells)
  case h_10 => exact .safe (changeCells_safe ha (by simp))
  case h_11 =>
    refine .safe (.get_bind fun heap hs => ?_)
    have hcells : AllTame w (heap.cells a).toList := by simpa [AllTame] using sound_cells hs ha
    refine (Safe.ofExcept fun _ => tame_sort hcells).bind fun ws hws => changeCells_safe ha ?_
    exact fun _ _ w hw => hws w (mem_toArray.mp hw)
  case h_12 => exact .none

theorem dictMethod?_makes (ha : Open w a)
    (h : AllTame w args) : MakesIf w (dictMethod? a name args) := by
  unfold dictMethod?
  split
  · refine .some (.get_bind fun heap hs => .pure ?_)
    rcases hv : heap.valueAt? a _ with _ | v
    · exact trivial
    · exact tame_valueAt? hs ha hv
  · refine .some (.get_bind fun heap hs => .pure ?_)
    rcases hv : heap.valueAt? a _ with _ | v
    · exact h _ (by simp)
    · exact tame_valueAt? hs ha hv
  · refine .some (.get_bind fun heap hs => newStream_makes fun v hv => ?_)
    obtain ⟨p, hp, rfl⟩ := mem_map.mp hv
    exact (sound_entries hs ha p hp).1
  · refine .some (.get_bind fun heap hs => newStream_makes fun v hv => ?_)
    obtain ⟨p, hp, rfl⟩ := mem_map.mp hv
    exact (sound_entries hs ha p hp).2
  · refine .some (.get_bind fun heap hs => ?_)
    refine (Makes.mapM (fun w' hw p hp => newTuple_makes ?_)
      fun _ _ _ hw hu => hu.mono hw).bind fun _ _ us hus => newStream_makes hus
    obtain ⟨hkey, hvalue⟩ := sound_entries hs ha p hp
    simpa using ⟨hkey.mono hw, hvalue.mono hw⟩
  · exact .none

theorem callMethod_makes {owner : Value} (howner : Tame w owner)
    (h : AllTame w args) : Makes w (callMethod owner name args) Tame := by
  have hgetD : ∀ {e : Option (Eval Value)}, MakesIf w e →
      Makes w (e.getD (throw (methodFault owner.typeName name args.length))) Tame := by
    rintro (_ | e) he
    · exact .fail
    · exact he e rfl
  unfold callMethod
  split
  · exact hgetD (textMethod?_makes h)
  · exact hgetD (listMethod?_makes howner h)
  · exact hgetD (dictMethod?_makes howner h)
  · exact hgetD .none

/-! ### Arguments -/

theorem spreadValues_safe (hv : Tame w v) : Safe w (spreadValues v) (AllTame w) :=
  .tryCatch (valuesOf_safe hv) fun _ => .fail

theorem namedEntries_safe {callee : Text} (hv : Tame w v) :
    Safe w (namedEntries callee v) fun ps => ∀ p ∈ ps, Tame w p.2 := by
  unfold namedEntries
  split
  · refine .get_bind fun h hs => .mapM fun p hp => ?_
    split
    · exact .pure (sound_entries hs hv _ hp).2
    · exact .fail
  · exact .fail

theorem partsFor_makes {targets : List Expr} (hv : Tame w v) :
    Makes w (partsFor targets v) AllTame := by
  unfold partsFor
  split
  · exact partsOf_makes hv
  · exact partsOf_makes hv

theorem gathered_makes {kind : Collection} {found : List (Value × Value)}
    (h : TamePairs w found) : Makes w (gathered kind found) Tame := by
  have hvalues : AllTame w (found.reverse.map Prod.snd) := by
    intro v hv
    obtain ⟨p, hp, rfl⟩ := mem_map.mp hv
    exact (h p (mem_reverse.mp hp)).2
  unfold gathered
  split
  · exact newList_makes fun v hv => hvalues v (mem_toArray.mp hv)
  · exact newSet_makes hvalues
  · exact dictOf_makes fun p hp => h p (mem_reverse.mp hp)
  · exact newStream_makes hvalues

theorem stopValue_makes {stop : Stop} : Makes w stop.value Tame := by
  unfold Stop.value
  split
  · exact (alloc_makes (by simp [TameObject, Tame])).bind fun _ _ _ ha => .pure ha
  · exact (alloc_makes (by simp [TameObject])).bind fun _ _ _ ha => .pure ha

theorem mem_bindNames {bound named bound' others : List (Text × Value)}
    (h : bindNames routine params bound named = .ok (bound', others)) :
    (∀ p ∈ bound', p ∈ bound ∨ p ∈ named ∧ p.1 ∈ paramNames params [.plain, .named]) ∧
      ∀ p ∈ others, p ∈ named := by
  induction named generalizing bound bound' others with
  | nil =>
    cases h
    exact ⟨fun p hp => .inl hp, nofun⟩
  | cons arg rest ih =>
    obtain ⟨name, v⟩ := arg
    rw [bindNames] at h
    split at h
    · next hname =>
      split at h
      · cases h
      · obtain ⟨hbound, hothers⟩ := ih h
        refine ⟨fun p hp => ?_, fun p hp => by simp [hothers p hp]⟩
        rcases hbound p hp with hp | ⟨hp, hname⟩
        · rcases mem_append.mp hp with hp | hp
          · exact .inl hp
          · obtain rfl := mem_singleton.mp hp
            exact .inr ⟨by simp, by simpa using hname⟩
        · exact .inr ⟨by simp [hp], hname⟩
    · split at h
      · obtain ⟨⟨bound'', others'⟩, hr, h⟩ := exists_of_bind_eq_ok h
        cases h
        obtain ⟨hbound, hothers⟩ := ih hr
        refine ⟨fun p hp => (hbound p hp).imp id fun ⟨hp, hname⟩ => ⟨by simp [hp], hname⟩,
          fun p hp => ?_⟩
        rcases mem_cons.mp hp with rfl | hp
        · simp
        · simp [hothers p hp]
      · dsimp only at h
        split at h <;> cases h

/-- The names that no parameter has become the entries of a dictionary, if
there is a parameter for them. -/
theorem bindOtherNames_makes {R : W → Text × Value → Prop}
    (hmono : ∀ w' w'' p, w' ≤ w'' → R w' p → R w'' p)
    (hR : ∀ w', w ≤ w' → ∀ p ∈ params, ∀ v, Tame w' v → R w' (p.name, v))
    {bound others : List (Text × Value)} (hbound : ∀ p ∈ bound, R w p)
    (hothers : ∀ p ∈ others, Tame w p.2) :
    Makes w (match params.find? (·.kind == .otherNames) with
      | some p => do
        let entries := others.map fun (name, v) => (Value.str name, v)
        return bound ++ [(p.name, ← Eval.newDict entries)]
      | none => return bound) fun w' bound => ∀ p ∈ bound, R w' p := by
  split
  · next p hp =>
    refine (newDict_makes ?_).bind fun w' hw v hv => .pure ?_
    · intro p hp
      obtain ⟨q, hq, rfl⟩ := mem_map.mp hp
      exact ⟨trivial, hothers q hq⟩
    · have := hR w' hw p (mem_of_find?_eq_some hp) v hv
      exact forall_mem_append.mpr ⟨fun p hp => hmono _ _ p hw (hbound p hp), by simpa using this⟩
  · exact .pure hbound

theorem bindArguments_makes {R : W → Text × Value → Prop}
    (hmono : ∀ w' w'' p, w' ≤ w'' → R w' p → R w'' p) {initials : List (Text × Value)}
    {a : Arguments} (hR : ∀ w', w ≤ w' → ∀ p ∈ params, ∀ v, Tame w' v → R w' (p.name, v))
    (hplaces : ∀ p ∈ (paramNames params [.position, .plain]).zip a.byPosition, R w p)
    (hnames : ∀ p ∈ a.byName, Tame w p.2) (hinitials : ∀ p ∈ initials, R w p)
    (hothers : params.find? (·.kind == .others) = none ∨ AllTame w a.byPosition) :
    Makes w (bindArguments routine params initials a) fun w' bound => ∀ p ∈ bound, R w' p := by
  have hnamed : ∀ kinds, ∀ name ∈ paramNames params kinds, ∀ v, Tame w v → R w (name, v) := by
    intro kinds name hname
    obtain ⟨p, hp, rfl⟩ := mem_map.mp hname
    exact hR w (le_refl w) p (mem_filter.mp hp).1
  refine (Safe.ofExcept fun _ h => mem_bindNames h).then ?_
  rintro ⟨bound, others⟩ ⟨hbound, hothers'⟩
  refine .guard (.guard (.guard ?_))
  have hall : ∀ p ∈ bound ++ initials.filter fun p => (bound.lookup p.1).isNone, R w p := by
    intro p hp
    rcases mem_append.mp hp with hp | hp
    · rcases hbound p hp with hp | ⟨hp, hname⟩
      · exact hplaces p hp
      · exact hnamed _ p.1 hname p.2 (hnames p hp)
    · exact hinitials p (mem_filter.mp hp).1
  have hrest : ∀ w', w ≤ w' → ∀ p ∈ others, Tame w' p.2 := fun w' hw p hp =>
    (hnames p (hothers' p hp)).mono hw
  dsimp only
  split
  · next p hp =>
    have hplaced : AllTame w a.byPosition := hothers.resolve_left (by simp [hp])
    refine (newTuple_makes fun v hv => hplaced v (mem_of_mem_drop hv)).bind fun w' hw v hv =>
      bindOtherNames_makes hmono (fun _ hw' => hR _ (le_trans hw hw')) ?_ (hrest w' hw)
    have := hR w' hw p (mem_of_find?_eq_some hp) v hv
    exact forall_mem_append.mpr ⟨fun p hp => hmono _ _ p hw (hall p hp), by simpa using this⟩
  · exact bindOtherNames_makes hmono hR hall (hrest w (le_refl w))

def TameArguments (w : W) (a : Arguments) : Prop :=
  AllTame w a.byPosition ∧ ∀ p ∈ a.byName, Tame w p.2

theorem bindArguments_tame {initials : List (Text × Value)} {a : Arguments}
    (ha : TameArguments w a) (hparams : ∀ p ∈ params, Binds W p.name)
    (hinitials : TameEntries w initials) :
    Makes w (bindArguments routine params initials a) TameEntries := by
  refine bindArguments_makes (fun _ _ _ hw hp => hp.mono hw)
    (fun _ _ p hp v hv => ⟨hparams p hp, hv⟩) ?_ ha.2 hinitials (.inr ha.1)
  rintro ⟨name, v⟩ hp
  obtain ⟨hname, hv⟩ := of_mem_zip hp
  obtain ⟨q, hq, rfl⟩ := mem_map.mp hname
  exact ⟨hparams q (mem_filter.mp hq).1, ha.1 v hv⟩

end Realm

end Pseudocode.Run

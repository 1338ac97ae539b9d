import Pseudocode.Proofs.Run.Realm

/-!
# The operations on values are safe

One lemma for each operation that a script can ask for: with tame
arguments it keeps the heap sound and its result is tame.
-/

namespace Pseudocode.Run

open Text Script List

variable {a b v : Value} {op : BinaryOp}

namespace Realm

open Regime (Sound)

variable {W : Type} [Regime W] {w : W}
variable {index new : Value} {α : Type}

/-! ### Values from outside -/

mutual

theorem toValue_makes : (d : Datum) → (w : W) → Makes w d.toValue Tame
  | .nothing, _ => .pure trivial
  | .bool _, _ => .pure trivial
  | .int _, _ => .pure trivial
  | .float _, _ => .ofSafe ofFloat_safe
  | .str _, _ => .pure trivial
  | .list items, w => (toValues_makes items w).bind fun _ _ _ h => newList_makes (by simpa using h)
  | .tuple items, w => (toValues_makes items w).bind fun _ _ _ h => newTuple_makes h
  | .set items, w => (toValues_makes items w).bind fun w' _ vs h => by
    refine (alloc_makes ?_).bind fun _ _ _ ha => .pure ha
    intro p hp
    obtain ⟨v, hv, rfl⟩ := mem_map.mp hp
    exact ⟨h v hv, trivial⟩
  | .dict entries, w => (toEntries_makes entries w).bind fun _ _ _ h => newDict_makes h
  | .object _ _, _ => .pure trivial

theorem toValues_makes : (ds : List Datum) → (w : W) → Makes w (Datum.toValues ds) AllTame
  | [], _ => .pure nofun
  | d :: rest, w => (toValue_makes d w).bind fun w₁ _ _ hv =>
    (toValues_makes rest w₁).bind fun _ h₂ _ hvs =>
      .pure (forall_mem_cons.mpr ⟨hv.mono h₂, hvs⟩)

theorem toEntries_makes : (es : List (Datum × Datum)) → (w : W) →
    Makes w (Datum.toEntries es) TamePairs
  | [], _ => .pure nofun
  | (key, d) :: rest, w => (toValue_makes key w).bind fun w₁ _ _ hk =>
    (toValue_makes d w₁).bind fun w₂ h₂ _ hv =>
      (toEntries_makes rest w₂).bind fun _ h₃ _ hps =>
        .pure (forall_mem_cons.mpr ⟨⟨(hk.mono h₂).mono h₃, hv.mono h₃⟩, hps⟩)

end

/-! ### Parts of values -/

theorem valuesOf_safe (hv : Tame w v) : Safe w (valuesOf v) (AllTame w) := by
  cases v with
  | str =>
    refine .get_bind fun h hs => .pure ?_
    intro w hw
    obtain ⟨c, -, rfl⟩ := mem_map.mp hw
    exact trivial
  | list a | tuple a => exact .get_bind fun h hs => .pure (by simpa [AllTame] using sound_cells hs hv)
  | stream =>
    refine .get_bind fun h hs => (change_safe hv (by simp [TameObject])).bind fun _ _ => .pure ?_
    simpa [AllTame] using sound_cells hs hv
  | set a | dict a =>
    refine .get_bind fun h hs => .pure ?_
    intro w hw
    obtain ⟨p, hp, rfl⟩ := mem_map.mp hw
    exact (sound_entries hs hv p hp).1
  | range =>
    refine .get_bind fun h hs => .pure ?_
    intro w hw
    obtain ⟨i, -, rfl⟩ := mem_map.mp hw
    exact trivial
  | _ => exact .get_bind fun h hs => .fail

theorem slicedItem_makes {low high step : Value} (hv : Tame w v) :
    Makes w (slicedItem v low high step) Tame := by
  cases v with
  | str => exact Safe.any.then fun _ _ => .pure trivial
  | list =>
    refine (cells_safe hv).then fun cells hcells => ?_
    refine Safe.any.then fun ps _ => newList_makes ?_
    intro w hw
    obtain ⟨i, -, hi⟩ := mem_filterMap.mp (mem_toArray.mp hw)
    exact hcells w (Array.mem_of_getElem? hi)
  | tuple =>
    refine (cells_safe hv).then fun cells hcells => ?_
    refine Safe.any.then fun ps _ => newTuple_makes ?_
    intro w hw
    obtain ⟨i, -, hi⟩ := mem_filterMap.mp hw
    exact hcells w (Array.mem_of_getElem? hi)
  | _ => exact .fail

theorem tame_getD {cells : Array Value} (h : ∀ v ∈ cells, Tame w v) (n : Nat) :
    Tame w (cells.getD n .nothing) := by
  unfold Array.getD
  split
  · exact h _ (Array.getElem_mem _)
  · exact trivial

theorem tame_valueAt? {h : Heap} (hs : Sound w h) {a : Nat} (ha : Open w a) {key : Value}
    (hv : h.valueAt? a key = some v) : Tame w v := by
  obtain ⟨p, hp, rfl⟩ := Option.map_eq_some_iff.mp hv
  exact (sound_entries hs ha p (mem_of_find?_eq_some hp)).2

theorem itemOf_makes (hv : Tame w v) : Makes w (itemOf v index) Tame := by
  refine .get_bind fun h hs => ?_
  split
  · exact .fail
  · exact .fail
  · exact slicedItem_makes hv
  · exact Safe.any.then fun n _ => .pure (tame_getD (sound_cells hs hv) n)
  · exact Safe.any.then fun n _ => .pure (tame_getD (sound_cells hs hv) n)
  · exact Safe.any.then fun n _ => .pure trivial
  · exact Safe.any.then fun n _ => .pure trivial
  · refine .guard ?_
    split
    · next w hw => exact .pure (tame_valueAt? hs hv hw)
    · exact Safe.any.then fun _ _ => .fail
  · exact .fail

theorem mem_assign {β : Type} {same : α → Bool} {key : α} {new : β} {xs : List (α × β)}
    {p : α × β} (h : p ∈ assign same key new xs) :
    p ∈ xs ∨ p.2 = new ∧ (p.1 = key ∨ same p.1 = true ∧ ∃ v, (p.1, v) ∈ xs) := by
  induction xs with
  | nil =>
    obtain rfl := mem_singleton.mp h
    exact .inr ⟨rfl, .inl rfl⟩
  | cons x rest ih =>
    obtain ⟨key', v⟩ := x
    rw [assign] at h
    split at h
    · next hsame =>
      rcases mem_cons.mp h with rfl | h
      · exact .inr ⟨rfl, .inr ⟨hsame, v, by simp⟩⟩
      · exact .inl (by simp [h])
    · rcases mem_cons.mp h with rfl | h
      · exact .inl (by simp)
      · obtain h | ⟨hp, rfl | ⟨hsame, w, hw⟩⟩ := ih h
        · exact .inl (by simp [h])
        · exact .inr ⟨hp, .inl rfl⟩
        · exact .inr ⟨hp, .inr ⟨hsame, w, by simp [hw]⟩⟩

theorem tame_assign {same : Value → Bool} {key : Value} {ps : List (Value × Value)}
    (hps : ∀ p ∈ ps, Tame w p.1 ∧ Tame w p.2) (hkey : Tame w key) (hnew : Tame w new) :
    ∀ p ∈ assign same key new ps, Tame w p.1 ∧ Tame w p.2 := by
  intro p hp
  obtain hp | ⟨h2, h1 | ⟨-, v, hv⟩⟩ := mem_assign hp
  · exact hps p hp
  · exact ⟨h1 ▸ hkey, h2 ▸ hnew⟩
  · exact ⟨(hps _ hv).1, h2 ▸ hnew⟩

theorem mem_of_mem_extract {xs : Array α} {i j : Nat} {x : α}
    (h : x ∈ xs.extract i j) : x ∈ xs := by
  obtain ⟨n, hn, rfl⟩ := Array.mem_iff_getElem.mp h
  rw [Array.getElem_extract]
  exact Array.getElem_mem _

theorem mem_of_mem_eraseIdxIfInBounds {xs : Array α} {i : Nat} {x : α}
    (h : x ∈ xs.eraseIdxIfInBounds i) : x ∈ xs := by
  unfold Array.eraseIdxIfInBounds at h
  split at h
  · exact Array.mem_of_mem_eraseIdx h
  · exact h

theorem storeSlice_safe {a : Nat} {low high step : Value} (ha : Open w a)
    (hnew : Tame w new) : Safe w (storeSlice a low high step new) fun _ => True := by
  refine (cells_safe ha).bind fun cells hcells => Safe.any.bind fun ⟨start, step, ps⟩ _ => ?_
  refine (Safe.tryCatch (valuesOf_safe hnew) fun _ => .fail).bind fun items hitems => ?_
  refine .ite (change_safe ha ?_) (.ite (change_safe ha ?_) .fail)
  · intro v hv
    simp only [Array.mem_append, mem_toArray] at hv
    rcases hv with (hv | hv) | hv
    · exact hcells v (mem_of_mem_extract hv)
    · exact hitems v hv
    · exact hcells v (mem_of_mem_extract hv)
  · refine foldlRecOn (motive := fun cells => ∀ v ∈ cells, Tame w v) _ _ hcells ?_
    intro cells hcells p hp v hv
    rcases Array.mem_or_eq_of_mem_setIfInBounds hv with hv | rfl
    · exact hcells v hv
    · exact hitems _ (of_mem_zip hp).2

theorem storeItem_safe (hv : Tame w v) (hindex : Tame w index)
    (hnew : Tame w new) : Safe w (storeItem v index new) fun _ => True := by
  unfold storeItem
  split
  · exact .get_bind fun h hs => storeSlice_safe hv hnew
  · refine .get_bind fun h hs => ?_
    split
    · refine modify_safe hv ?_
      intro o ho
      cases o with
      | cells =>
        intro w hw
        rcases Array.mem_or_eq_of_mem_setIfInBounds hw with hw | rfl
        · exact ho w hw
        · exact hnew
      | _ => exact ho
    · exact .fail_bind
    · exact .fail_bind
  · refine .guard (.get_bind fun h hs => change_safe hv ?_)
    exact tame_assign (sound_entries hs hv) hindex hnew
  · exact .fail

theorem deleteItem_safe (hv : Tame w v) : Safe w (deleteItem v index) fun _ => True := by
  refine .get_bind fun h hs => ?_
  split
  · refine Safe.any.bind fun ps _ => change_safe hv ?_
    intro w hw
    obtain ⟨i, -, hi⟩ := mem_filterMap.mp (mem_toArray.mp hw)
    exact sound_cells hs hv w (Array.mem_of_getElem? hi)
  · dsimp only
    split
    · refine change_safe hv ?_
      intro w hw
      exact sound_cells hs hv w (mem_of_mem_eraseIdxIfInBounds hw)
    · exact .fail
    · exact .fail
  · refine .ite (change_safe hv ?_) (Safe.any.bind fun _ _ => .fail)
    exact fun p hp => sound_entries hs hv p (mem_filter.mp hp).1
  · exact .fail

theorem newSet_makes {items : List Value} (h : AllTame w items) : Makes w (newSet items) Tame := by
  unfold newSet
  split
  · exact .fail
  · refine .get_bind fun heap hs => (alloc_makes ?_).bind fun _ _ _ ha => .pure ha
    refine foldlRecOn (motive := TamePairs w) _ _ nofun fun es hes x hx => ?_
    split
    · exact hes
    · exact forall_mem_concat hes ⟨h x hx, trivial⟩

/-- The values that a source still gives are tame. -/
def TameSource (w : W) : Source → Prop
  | .cells a _ => Open w a
  | .integers .. => True
  | .values rest => AllTame w rest

theorem TameSource.mono {w' : W} {source : Source} (h : TameSource w source)
    (hle : w ≤ w') : TameSource w' source := by
  cases source with
  | cells => exact open_mono h hle
  | integers => trivial
  | values => exact AllTame.mono h hle

theorem sourceOf_safe (hv : Tame w v) : Safe w (sourceOf v) (TameSource w) := by
  unfold sourceOf
  split
  · exact .pure hv
  · exact .pure trivial
  · exact (valuesOf_safe hv).bind fun _ h => .pure h

theorem TameSource.next? {source rest : Source} {h : Heap} (hs : Sound w h)
    (hsource : TameSource w source) (hnext : source.next? h = some (v, rest)) :
    Tame w v ∧ TameSource w rest := by
  unfold Source.next? at hnext
  split at hnext
  · next a i =>
    obtain ⟨w, hw, hpair⟩ := Option.map_eq_some_iff.mp hnext
    obtain ⟨rfl, rfl⟩ := Prod.mk.inj hpair
    exact ⟨sound_cells hs hsource w (Array.mem_of_getElem? hw), hsource⟩
  · cases hnext
    exact ⟨trivial, trivial⟩
  · exact absurd hnext (by simp)
  · next w ws =>
    obtain ⟨rfl, rfl⟩ := Prod.mk.inj (Option.some.inj hnext)
    exact ⟨hsource w (by simp), fun u hu => hsource u (by simp [hu])⟩
  · exact absurd hnext (by simp)

theorem partsOf_makes {front back : Nat} {spread : Bool} (hv : Tame w v) :
    Makes w (partsOf v front back spread) AllTame := by
  unfold partsOf
  dsimp only
  split
  case h_8 => exact .fail_bind
  -- Every other value gives its parts in the same way.
  all_goals
    refine (valuesOf_safe hv).then fun parts hparts => ?_
    refine .ite .fail (.ite ((newList_makes ?_).bind fun w' hw rest hrest => .pure ?_)
      (.ite .fail (.pure hparts)))
    · intro u hu
      exact hparts u (mem_of_mem_drop (mem_of_mem_take (mem_toArray.mp hu)))
    · intro u hu
      simp only [mem_append, mem_singleton] at hu
      rcases hu with (hu | rfl) | hu
      · exact (hparts u (mem_of_mem_take hu)).mono hw
      · exact hrest
      · exact (hparts u (mem_of_mem_drop hu)).mono hw

/-! ### Arithmetic -/

def MakesIf (w : W) (e : Option (Eval Value)) : Prop :=
  ∀ op, e = some op → Makes w op Tame

theorem MakesIf.some {e : Eval Value} (h : Makes w e Tame) : MakesIf w (some e) := by
  rintro _ ⟨⟩
  exact h

theorem MakesIf.safe {e : Eval Value} (h : Safe w e (Tame w)) : MakesIf w (Option.some e) :=
  .some (.ofSafe h)

theorem MakesIf.none : MakesIf w none :=
  nofun

theorem tame_intArith {m n : Int} (h : intArith op m n = .ok v) : Tame w v := by
  unfold intArith at h
  cases op with
  | power =>
    dsimp only [bind, Except.bind] at h
    repeat' split at h
    all_goals cases h
    all_goals trivial
  | _ =>
    dsimp only at h
    repeat' split at h
    all_goals cases h
    all_goals trivial

theorem numericArith?_makes : MakesIf w (numericArith? op a b) := by
  unfold numericArith?
  split
  · next v _ _ hv =>
    refine .some (.pure ?_)
    unfold boolArith? at hv
    split at hv <;> cases hv <;> trivial
  · split
    · exact .none
    · exact .some (.ofSafe (.ofExcept fun _ => tame_intArith))
  · split
    · exact .none
    · refine .some (.ofSafe (Safe.any.bind fun x _ => Safe.any.bind fun y _ => ?_))
      split
      · exact ofFloat_safe
      · exact .fail
      · exact .fail
  · exact .none

theorem repeated?_makes {count : Value} (hv : Tame w v) : MakesIf w (repeated? v count) := by
  cases v with
  | str => exact .some (Safe.lift (fun _ _ => trivial) |>.then fun _ _ => .pure trivial)
  | list =>
    refine .some ((cells_safe hv).then fun cells hcells => ?_)
    refine (Safe.lift fun _ _ => trivial).then fun n _ => newList_makes ?_
    intro w hw
    split at hw
    · exact hcells w (Array.eq_of_mem_replicate hw ▸ Array.getElem_mem _)
    · obtain ⟨ys, hys, hw⟩ := Array.mem_flatten.mp hw
      exact hcells w (Array.eq_of_mem_replicate hys ▸ hw)
  | tuple =>
    refine .some ((cells_safe hv).then fun cells hcells => ?_)
    refine (Safe.lift fun _ _ => trivial).then fun n _ => newTuple_makes ?_
    intro w hw
    obtain ⟨ys, hys, hw⟩ := mem_flatten.mp hw
    exact hcells w (by simpa [eq_of_mem_replicate hys] using hw)
  | _ => exact .none

theorem joined?_makes (ha : Tame w a) (hb : Tame w b) : MakesIf w (joined? a b) := by
  unfold joined?
  split
  · exact .some (.pure trivial)
  · refine .some ((cells_safe ha).then fun xs hxs => (cells_safe hb).then fun ys hys =>
      newList_makes ?_)
    intro w hw
    exact (Array.mem_append.mp hw).elim (hxs w) (hys w)
  · refine .some ((cells_safe ha).then fun xs hxs => (cells_safe hb).then fun ys hys =>
      newTuple_makes ?_)
    intro w hw
    exact (Array.mem_append.mp (Array.mem_toList_iff.mp hw)).elim (hxs w) (hys w)
  · exact .some .fail
  · exact .some .fail
  · exact .some .fail
  · exact .none

theorem sequenceArith?_makes (ha : Tame w a) (hb : Tame w b) :
    MakesIf w (sequenceArith? op a b) := by
  unfold sequenceArith?
  split
  · exact joined?_makes ha hb
  · intro e he
    rcases hr : repeated? a b with _ | e'
    · rw [hr] at he
      exact repeated?_makes hb e he
    · rw [hr] at he
      obtain rfl : e' = e := Option.some.inj he
      exact repeated?_makes ha _ hr
  · exact .none

theorem binary_makes {assigning : Bool} (ha : Tame w a)
    (hb : Tame w b) : Makes w (binary op assigning a b) Tame := by
  unfold binary
  split
  · exact .get_bind fun h hs => Safe.any.then fun _ _ => .pure trivial
  · next h => exact numericArith?_makes _ h
  · next h => exact sequenceArith?_makes ha hb _ h
  · exact .fail

theorem signed_safe {op : UnaryOp} (hv : Tame w v) : Safe w (signed op v) (Tame w) := by
  unfold signed
  split
  · exact .pure hv
  · exact .pure trivial
  · exact .pure trivial
  · exact ofFloat_safe
  · exact .pure trivial
  · exact .fail

theorem augmented_makes (ha : Tame w a) (hb : Tame w b) : Makes w (augmented op a b) Tame := by
  unfold augmented
  split
  · refine .ofSafe ?_
    refine (valuesOf_safe hb).bind fun items hitems => (cells_safe ha).bind fun cells hcells => ?_
    refine (change_safe ha ?_).bind fun _ _ => .pure ha
    intro w hw
    exact (Array.mem_append.mp hw).elim (hcells w) fun hw => hitems w (mem_toArray.mp hw)
  · exact binary_makes ha hb

end Realm

end Pseudocode.Run

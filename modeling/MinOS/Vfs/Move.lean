/-
# MinOS.Vfs.Move — what `vfs_move` does to the data.

`vfs_move` is a copy and a removal of the source. On the tree a copy that goes through writes one entry
(`Tree.copy_done`), and the removal then takes another one away; that is a move as long as the two are
different entries. When the source and the target normalise to one path, what was copied is removed again.
-/
import MinOS.Vfs.Refine

namespace MinOS.Vfs

open NameTree Machine

/-! ## Moving on the tree -/

namespace Tree

variable {T : Tree} {src dst : PathArg}

/-- A read of the whole file -/
theorem read_eq_some {b : List UInt8} (h : T.read src 4096 = some b) :
    ∃ c i bytes, canon src.chars = some c ∧ T.entry c = some (i, .file bytes) ∧ bytes.val = b := by
  unfold read at h
  split at h
  · rename_i i bytes hget
    obtain ⟨c, hc, hi⟩ := Option.bind_eq_some_iff.mp hget
    refine ⟨c, i, bytes, hc, hi, ?_⟩
    rw [← Option.some.inj h]
    exact (List.take_of_length_le bytes.property).symm
  · cases h

/-- A copy that goes through writes one entry. -/
theorem copy_done (h : (T.copy src dst).1 = 0) :
    ∃ c c' i j b, canon src.chars = some c ∧ canon dst.chars = some c' ∧ T.entry c = some (i, .file b) ∧
      (T.copy src dst).2.entry = Function.update T.entry c' (some (j, .file b)) := by
  unfold copy at h ⊢
  split at h
  · cases h
  rename_i bytes hread
  split at h
  · cases h
  rename_i htouch
  split at h
  · cases h
  rename_i hwrite
  rw [if_neg htouch, if_neg hwrite]
  obtain ⟨c, i, b, hc, hi, rfl⟩ := read_eq_some hread
  obtain ⟨hrefused, -⟩ | ⟨c', j, old, T', hc', -, hdone, hT'⟩ :=
    (T.touch dst).2.write_cases dst b.val false
  · rw [hrefused] at hwrite
    exact absurd (show (-1 : Int) ≠ 0 by decide) hwrite
  refine ⟨c, c', i, j, b, hc, hc', hi, ?_⟩
  have hbytes : newBytes old b.val false = b := Subtype.ext (List.take_of_length_le b.property)
  rw [hdone, hT', hbytes]
  funext q
  by_cases hq : q = c'
  · rw [hq, Function.update_self, Function.update_self]
  · rw [Function.update_of_ne hq, Function.update_of_ne hq]
    apply (lawful_touch dst).frame
    intro p hp
    rw [List.mem_singleton.mp hp, hc']
    exact fun he => hq (Option.some.inj he).symm

/-- A file can always be copied to itself. -/
theorem copy_self {c : List (List UInt8)} {i : Slot} {b : FileBytes} (hsrc : canon src.chars = some c)
    (hdst : canon dst.chars = some c) (hi : T.entry c = some (i, .file b)) : (T.copy src dst).1 = 0 := by
  have hget : T.get src = some (i, .file b) := by rw [get, hsrc, Option.bind_some, hi]
  have hget' : T.get dst = some (i, .file b) := by rw [get, hdst, Option.bind_some, hi]
  have htouch : T.touch dst = (0, T) := by
    rw [touch, hget']
    rfl
  have hread : T.read src 4096 = some (b.val.take (4096 : UInt32).toNat) := by rw [read, hget]
  unfold copy
  rw [hread, htouch]
  dsimp only
  obtain ⟨-, hno⟩ | ⟨_, _, _, _, -, -, hdone, -⟩ :=
    T.write_cases dst (b.val.take (4096 : UInt32).toNat) false
  · exact absurd hget' (hno i b)
  · rw [hdone]
    rfl

/-- A move that goes through takes the source away after the copy. -/
theorem move_done (h : (T.copy src dst).1 = 0) :
    ∃ c c' i j b, canon src.chars = some c ∧ canon dst.chars = some c' ∧ T.entry c = some (i, .file b) ∧
      (T.move src dst).1 = 0 ∧
      (T.move src dst).2.entry =
        Function.update (Function.update T.entry c' (some (j, .file b))) c none := by
  obtain ⟨c, c', i, j, b, hc, hc', hi, hT'⟩ := copy_done h
  refine ⟨c, c', i, j, b, hc, hc', hi, ?_⟩
  obtain ⟨k, b', hfile⟩ := file_of_copy h
  obtain ⟨-, hno⟩ | ⟨c₁, _, _, T'', hc₁, -, hdone, hT''⟩ := (T.copy src dst).2.remove_cases src
  · exact absurd hfile (hno k b')
  · obtain rfl : c₁ = c := Option.some.inj (hc₁.symm.trans hc)
    rw [move, if_neg (not_not_intro h), hdone, hT'', hT']
    exact ⟨rfl, rfl⟩

theorem move_refused (h : (T.copy src dst).1 ≠ 0) : T.move src dst = (-1, T) := by
  rcases (lawful_copy (T := T) src dst).code with hcopy | hcopy
  · rw [move, if_pos h, hcopy]
  · exact absurd hcopy h

end Tree

/-! ## Moving in the table -/

/-- What is at a canonical path -/
def nodeAt (s : State) (c : List (List UInt8)) : Option Node := (resolve s.records c).map (nodeOf s)

/-- What a move is for: 0 means that the target holds the bytes of the source, the source is gone unless it is
the target, and nothing else has changed; -1 means that nothing has changed. -/
def MovesData (s : State) (src dst : PathArg) : Prop :=
  ∃ rc s', vfsMove s src.chars dst.chars = .ok (rc, s') ∧
    (rc = 0 ∨ rc = -1) ∧
    (rc = 0 → ∃ c c' b, canon src.chars = some c ∧ canon dst.chars = some c' ∧
      nodeAt s c = some (.file b) ∧ nodeAt s' c' = some (.file b) ∧
      (c ≠ c' → nodeAt s' c = none) ∧ ∀ q, q ≠ c → q ≠ c' → nodeAt s' q = nodeAt s q) ∧
    (rc = -1 → ∀ q, nodeAt s' q = nodeAt s q)

/-- The source and the target are one file. -/
def SameFile (s : State) (src dst : PathArg) : Prop :=
  ∃ c b, canon src.chars = some c ∧ canon dst.chars = some c ∧ nodeAt s c = some (.file b)

theorem Refines.nodeAt_eq {s : State} {T : Tree} (h : Refines s T) (c : List (List UInt8)) :
    nodeAt s c = (T.entry c).map Prod.snd := by
  rw [nodeAt, h.entry_eq, Option.map_map]
  rfl

theorem Refines.movesData_iff {s : State} {T : Tree} (h : Refines s T) (src dst : PathArg) :
    MovesData s src dst ↔ ¬ SameFile s src dst := by
  obtain ⟨s', hmove, h'⟩ := h.agrees_move src dst
  constructor
  · rintro ⟨rc, s'', hrc, -, hzero, -⟩ ⟨c, b, hc, hc', hb⟩
    rw [hmove] at hrc
    obtain ⟨rfl, rfl⟩ := Prod.mk.inj (Except.ok.inj hrc)
    rw [h.nodeAt_eq, Option.map_eq_some_iff] at hb
    obtain ⟨⟨i, node⟩, hi, rfl⟩ := hb
    obtain ⟨c₁, c₂, _, _, _, hc₁, hc₂, -, hrc, hentry⟩ := Tree.move_done (Tree.copy_self hc hc' hi)
    obtain ⟨c₃, c₄, b', -, hc₄, -, htarget, -⟩ := hzero hrc
    -- the target is the source, which has been removed
    obtain rfl : c₁ = c := Option.some.inj (hc₁.symm.trans hc)
    obtain rfl : c₄ = c₁ := Option.some.inj (hc₄.symm.trans hc')
    rw [h'.nodeAt_eq, hentry, Function.update_self] at htarget
    cases htarget
  · intro hdifferent
    refine ⟨_, s', hmove, ?_⟩
    by_cases hcopy : (T.copy src dst).1 = 0
    · obtain ⟨c, c', i, j, b, hc, hc', hi, hrc, hentry⟩ := Tree.move_done hcopy
      have hb : nodeAt s c = some (.file b) := by rw [h.nodeAt_eq, hi]; rfl
      have hne : c' ≠ c := by
        rintro rfl
        exact hdifferent ⟨c', b, hc, hc', hb⟩
      refine ⟨Or.inl hrc, fun _ => ⟨c, c', b, hc, hc', hb, ?_, fun _ => ?_, fun q hq hq' => ?_⟩, ?_⟩
      · rw [h'.nodeAt_eq, hentry, Function.update_of_ne hne, Function.update_self]
        rfl
      · rw [h'.nodeAt_eq, hentry, Function.update_self]
        rfl
      · rw [h'.nodeAt_eq, hentry, Function.update_of_ne hq, Function.update_of_ne hq', h.nodeAt_eq]
      · rw [hrc]
        exact fun h => absurd h (by decide)
    · have hrefused := Tree.move_refused hcopy
      rw [hrefused] at h' ⊢
      refine ⟨Or.inr rfl, fun h => absurd h (show (-1 : Int) ≠ 0 by decide), fun _ q => ?_⟩
      rw [h'.nodeAt_eq, h.nodeAt_eq]

/-- **A move keeps the data exactly when the source and the target are not one file**, in every state a run
without a disk can reach. -/
theorem move_keeps_data_iff (s₀ : State) (hdisk : s₀.drive.present = false) (ops : List Op)
    {replies : List Reply} {s : State} (hrun : run step (vfsInit s₀).2 ops = .ok (replies, s))
    (src dst : PathArg) : MovesData s src dst ↔ ¬ SameFile s src dst := by
  obtain ⟨s', hrun', h⟩ := run_simulates (R := Refines) (fun s T op h => h.step op) ops _ _
    (refines_vfsInit s₀ hdisk).2
  rw [hrun] at hrun'
  obtain ⟨-, rfl⟩ := Prod.mk.inj (Except.ok.inj hrun')
  exact h.movesData_iff src dst

/-- The state after `touch /a` on an empty filesystem -/
def withFileA : State :=
  { (vfsInit (State.boot noDrive)).2.setRecord 1 (newRecord .file 0 1 [97]) with flushed := true }

theorem vfsTouch_pathA : vfsTouch (vfsInit (State.boot noDrive)).2 pathA.chars = .ok (0, withFileA) := by
  have hwf := (refines_vfsInit (State.boot noDrive) rfl).2.wf
  have htarget : createTarget (vfsInit (State.boot noDrive)).2.records pathA.chars = some (0, 1, [97]) := by
    show createTarget initTable pathA.chars = _
    decide
  have hcreate := hwf.create_eq pathA .file
  rw [htarget] at hcreate
  dsimp only at hcreate
  rw [persist_volatile rfl] at hcreate
  have habsent : lookup (vfsInit (State.boot noDrive)).2.records pathA.chars = none := by
    show lookup initTable pathA.chars = none
    decide
  rw [hwf.touch_eq, habsent]
  exact hcreate

theorem run_touch_a :
    run step (vfsInit (State.boot noDrive)).2 [.touch pathA] = .ok ([.code 0], withFileA) :=
  run_cons_ok (reply_eq_ok_iff.mpr ⟨0, vfsTouch_pathA, rfl⟩) rfl

theorem sameFile_a : SameFile withFileA pathA pathA := by
  refine ⟨[[97]], bytesOf withFileA 1, by decide, by decide, ?_⟩
  have hresolve : resolve withFileA.records [[97]] = some 1 := by decide
  rw [nodeAt, hresolve, Option.map_some, nodeOf_file rfl]

/-- `/b` -/
def pathB : PathArg := ⟨[slash, 98], by decide, by decide⟩

/-- Moving `/a` to `/b` keeps the data. -/
theorem move_keeps_data_iff_ab : MovesData withFileA pathA pathB := by
  apply (move_keeps_data_iff (State.boot noDrive) rfl [.touch pathA] run_touch_a pathA pathB).mpr
  rintro ⟨c, b, hc, hc', -⟩
  have hne : canon pathA.chars ≠ canon pathB.chars := by decide
  exact hne (hc.trans hc'.symm)

/-- Moving `/a` to `/a` loses it. -/
theorem move_to_itself_loses : ¬ MovesData withFileA pathA pathA := by
  intro h
  obtain ⟨s', hrun, hrefines⟩ := run_simulates (R := Refines) (fun s T op h => h.step op) [.touch pathA] _ _
    (refines_vfsInit (State.boot noDrive) rfl).2
  rw [run_touch_a] at hrun
  obtain ⟨-, rfl⟩ := Prod.mk.inj (Except.ok.inj hrun)
  exact (hrefines.movesData_iff pathA pathA).mp h sameFile_a

end MinOS.Vfs

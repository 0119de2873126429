import Fabric.Blkstorage.BlockfileMgr
import Fabric.Proof.Blkstorage.Serialization

/-! # Blocks in files -/

namespace Fabric.Proof.Blkstorage

open Lib Fabric.Ledger Fabric.Blkstorage List Varint

def frame (block : Block) : Bytes := encode (blockBytes block).length ++ blockBytes block

def fileBytes (blocks : List Block) : Bytes := blocks.flatMap frame

abbrev Layout := List (List Block)

def Layout.files (layout : Layout) : List Bytes := layout.map fileBytes

@[simp] theorem fileBytes_nil : fileBytes [] = [] := rfl

@[simp] theorem fileBytes_append (xs ys : List Block) : fileBytes (xs ++ ys) = fileBytes xs ++ fileBytes ys :=
  flatMap_append

variable {block : Block} {rest : List Block} {layout : Layout} {fileNum offset i : Nat}

theorem fileBytes_cons (block : Block) (blocks : List Block) : fileBytes (block :: blocks) = frame block ++ fileBytes blocks :=
  rfl

theorem length_frame (block : Block) : (frame block).length = (encode (blockBytes block).length).length + (blockBytes block).length := by
  simp [frame]

theorem nextBlockBytes_end (file : Bytes) (fileNum : Nat) : nextBlockBytesAndPlacementInfo file fileNum file.length = .ok none := by
  simp [nextBlockBytesAndPlacementInfo]

theorem nextBlockBytes_frame (inMemory : InMemory block) (before after : Bytes) (fileNum : Nat) :
    nextBlockBytesAndPlacementInfo (before ++ (frame block ++ after)) fileNum before.length = .ok (some (blockBytes block,
        ⟨fileNum, before.length, before.length + (encode (blockBytes block).length).length⟩, before.length + (frame block).length)) := by
  have ne := length_pos_iff.mpr (encode_ne_nil (blockBytes block).length)
  have short : (encode (blockBytes block).length).length ≤ 8 := length_encodeBytes_le 7 10 _ inMemory.size
  have more : before.length < (before ++ (frame block ++ after)).length := by
    simp only [length_append, length_frame]
    omega
  unfold nextBlockBytesAndPlacementInfo
  rw [if_neg (Nat.ne_of_lt more), if_neg (Nat.not_lt.mpr more.le)]
  simp only [drop_left, frame, append_assoc]
  rw [decode_take inMemory.size]
  have consumed : ((encode (blockBytes block).length ++ (blockBytes block ++ after)).take 8).length -
      ((blockBytes block ++ after).take (8 - (encode (blockBytes block).length).length)).length =
      (encode (blockBytes block).length).length := by
    simp only [length_take, length_append]
    omega
  simp only [consumed]
  rw [if_neg (by simp)]
  simp [Nat.add_assoc]

def Remaining (layout : Layout) (fileNum offset : Nat) (rest : List Block) : Prop :=
  ∃ before after files, layout.drop fileNum = (before ++ after) :: files ∧ offset = (fileBytes before).length ∧
    rest = after ++ files.flatten

theorem nextInFiles_of_block (inMemory : InMemory block) (before after : List Block) (files : Layout)
    (endFileNum : Option Nat) (fileNum : Nat) :
    nextInFiles endFileNum (Layout.files ((before ++ block :: after) :: files)) fileNum (fileBytes before).length =
      .ok (some (blockBytes block, ⟨fileNum, (fileBytes before).length,
        (fileBytes before).length + (encode (blockBytes block).length).length⟩, (fileBytes (before ++ [block])).length)) := by
  simp only [Layout.files, map_cons, nextInFiles, fileBytes_append, fileBytes_cons]
  rw [nextBlockBytes_frame inMemory]
  simp [fileBytes]

theorem nextInFiles_end (file : Bytes) (files : List Bytes) (fileNum : Nat) :
    nextInFiles none (file :: files) fileNum file.length = nextInFiles none files (fileNum + 1) 0 := by
  rw [nextInFiles, nextBlockBytes_end]
  rfl

theorem nextInFiles_of_rest {after : List Block} {files : Layout} (inMemory : InMemory block)
    (next : after ++ files.flatten = block :: rest) (before : List Block) (fileNum : Nat) :
    ∃ skipped before' after' files', (before ++ after) :: files = skipped ++ (before' ++ block :: after') :: files' ∧
      rest = after' ++ files'.flatten ∧ nextInFiles none (Layout.files ((before ++ after) :: files)) fileNum (fileBytes before).length =
        .ok (some (blockBytes block, ⟨fileNum + skipped.length, (fileBytes before').length,
          (fileBytes before').length + (encode (blockBytes block).length).length⟩, (fileBytes (before' ++ [block])).length)) := by
  induction files generalizing before after fileNum with
  | nil =>
    obtain rfl : after = block :: rest := by simpa using next
    exact ⟨[], before, rest, [], rfl, by simp, nextInFiles_of_block inMemory before rest [] none fileNum⟩
  | cons file files ih =>
    cases after with
    | cons b after =>
      obtain ⟨rfl, same⟩ : b = block ∧ after ++ (file :: files).flatten = rest := by simpa using next
      exact ⟨[], before, after, file :: files, rfl, same.symm, nextInFiles_of_block inMemory before after (file :: files) none fileNum⟩
    | nil =>
      obtain ⟨skipped, before', after', files', split, same, read⟩ := @ih file (by simpa using next) [] (fileNum + 1)
      refine ⟨before :: skipped, before', after', files', ?_, same, ?_⟩
      · simpa using split
      · rw [append_nil, Layout.files, map_cons, nextInFiles_end]
        simp only [Layout.files, nil_append, fileBytes_nil, length_nil] at read
        rw [read, length_cons, Nat.add_assoc, Nat.add_comm 1]

theorem Remaining.next (remaining : Remaining layout fileNum offset (block :: rest)) (inMemory : InMemory block) :
    ∃ placement stream, BlockStream.nextBlockBytes layout.files ⟨fileNum, offset, none⟩ = .ok (some (blockBytes block, placement, stream)) ∧
      stream.endFileNum = none ∧ Remaining layout stream.currentFileNum stream.currentOffset rest := by
  obtain ⟨before, after, files, located, rfl, next⟩ := remaining
  obtain ⟨skipped, before', after', files', split, same, read⟩ := nextInFiles_of_rest inMemory next.symm before fileNum
  have suffix : layout.files.drop fileNum = Layout.files ((before ++ after) :: files) := by
    rw [Layout.files, ← map_drop, located, Layout.files]
  rw [← suffix] at read
  refine ⟨_, ⟨fileNum + skipped.length, (fileBytes (before' ++ [block])).length, none⟩,
    bind_eq_ok.mpr ⟨_, read, rfl⟩, rfl, before' ++ [block], after', files', ?_, rfl, same⟩
  rw [← drop_drop, located, split, drop_left]
  simp

structure Placement where
  fileNum : Nat
  offset : Nat
  block : Block

variable {p : Placement}

def filePlacements (fileNum : Nat) : Nat → List Block → List Placement
  | _, [] => []
  | offset, block :: blocks => ⟨fileNum, offset, block⟩ :: filePlacements fileNum (offset + (frame block).length) blocks

def placementsFrom : Nat → Layout → List Placement
  | _, [] => []
  | fileNum, blocks :: files => filePlacements fileNum 0 blocks ++ placementsFrom (fileNum + 1) files

def Layout.placements (layout : Layout) : List Placement := placementsFrom 0 layout

theorem map_block_filePlacements (fileNum offset : Nat) (blocks : List Block) :
    (filePlacements fileNum offset blocks).map (·.block) = blocks := by
  induction blocks generalizing offset with
  | nil => rfl
  | cons block blocks ih => simp [filePlacements, ih]

theorem map_block_placementsFrom (fileNum : Nat) (layout : Layout) : (placementsFrom fileNum layout).map (·.block) = layout.flatten := by
  induction layout generalizing fileNum with
  | nil => rfl
  | cons blocks files ih => simp [placementsFrom, map_block_filePlacements, ih]

theorem map_block_placements (layout : Layout) : layout.placements.map (·.block) = layout.flatten :=
  map_block_placementsFrom 0 layout

theorem filePlacements_append (fileNum offset : Nat) (xs ys : List Block) : filePlacements fileNum offset (xs ++ ys) =
      filePlacements fileNum offset xs ++ filePlacements fileNum (offset + (fileBytes xs).length) ys := by
  induction xs generalizing offset with
  | nil => simp [filePlacements]
  | cons block xs ih => simp [filePlacements, ih, fileBytes_cons, Nat.add_assoc]

theorem placementsFrom_append (fileNum : Nat) (xs ys : Layout) :
    placementsFrom fileNum (xs ++ ys) = placementsFrom fileNum xs ++ placementsFrom (fileNum + xs.length) ys := by
  induction xs generalizing fileNum with
  | nil => simp [placementsFrom]
  | cons blocks xs ih => simp [placementsFrom, ih, Nat.add_assoc, Nat.add_comm 1]

theorem placements_concat (layout : Layout) (last : List Block) (block : Block) : Layout.placements (layout ++ [last ++ [block]]) =
      Layout.placements (layout ++ [last]) ++ [⟨layout.length, (fileBytes last).length, block⟩] := by
  simp [Layout.placements, placementsFrom_append, placementsFrom, filePlacements_append, filePlacements]

theorem placements_newFile (layout : Layout) : Layout.placements (layout ++ [[]]) = layout.placements := by
  simp [Layout.placements, placementsFrom_append, placementsFrom, filePlacements]

theorem located_of_filePlacements {blocks : List Block} (found : (filePlacements fileNum offset blocks)[i]? = some p) :
    p.fileNum = fileNum ∧ ∃ before after, blocks = before ++ p.block :: after ∧
      p.offset = offset + (fileBytes before).length ∧ before.length = i := by
  induction blocks generalizing offset i with
  | nil => simp [filePlacements] at found
  | cons block blocks ih =>
    cases i with
    | zero =>
      obtain rfl : ⟨fileNum, offset, block⟩ = p := by simpa [filePlacements] using found
      exact ⟨rfl, [], blocks, rfl, rfl, rfl⟩
    | succ i =>
      obtain ⟨file, before, after, rfl, place, count⟩ := ih (by simpa [filePlacements] using found)
      exact ⟨file, block :: before, after, rfl, by simp [place, fileBytes_cons, Nat.add_assoc], by simp [count]⟩

theorem located_of_placementsFrom (found : (placementsFrom fileNum layout)[i]? = some p) :
    fileNum ≤ p.fileNum ∧ ∃ before after files, layout.drop (p.fileNum - fileNum) = (before ++ p.block :: after) :: files ∧
      p.offset = (fileBytes before).length ∧ p.block :: (after ++ files.flatten) = layout.flatten.drop i := by
  induction layout generalizing fileNum i with
  | nil => simp [placementsFrom] at found
  | cons blocks files ih =>
    rw [placementsFrom, getElem?_append] at found
    split at found
    · obtain ⟨file, before, after, rfl, place, rfl⟩ := located_of_filePlacements found
      refine ⟨file.ge, before, after, files, by simp [file], by simpa using place, ?_⟩
      simp
    · rename_i beyond
      have count : (filePlacements fileNum 0 blocks).length = blocks.length := by
        simpa using congrArg List.length (map_block_filePlacements fileNum 0 blocks)
      obtain ⟨later, before, after, files', located, place, rest⟩ := ih found
      refine ⟨by omega, before, after, files', ?_, place, ?_⟩
      · obtain ⟨k, same⟩ : ∃ k, p.fileNum - fileNum = k + 1 := ⟨p.fileNum - (fileNum + 1), by omega⟩
        rw [same, drop_succ_cons, ← located]
        congr 1
        omega
      · have passed : blocks.drop i = [] := drop_of_length_le (by omega)
        rw [rest, flatten_cons, count, drop_append, passed, nil_append]

theorem Layout.located (found : layout.placements[i]? = some p) :
    ∃ before after files, layout.drop p.fileNum = (before ++ p.block :: after) :: files ∧
      p.offset = (fileBytes before).length ∧ p.block :: (after ++ files.flatten) = layout.flatten.drop i := by
  simpa using (located_of_placementsFrom found).2

theorem remaining_of_placement (found : layout.placements[i]? = some p) : Remaining layout p.fileNum p.offset (layout.flatten.drop i) := by
  obtain ⟨before, after, files, located, place, rest⟩ := Layout.located found
  exact ⟨before, p.block :: after, files, located, place, by simpa using rest.symm⟩

theorem Remaining.append {last : List Block} (remaining : Remaining (layout ++ [last]) fileNum offset rest) (block : Block) :
    Remaining (layout ++ [last ++ [block]]) fileNum offset (rest ++ [block]) := by
  obtain ⟨before, after, files, located, place, rfl⟩ := remaining
  cases files using reverseRecOn with
  | nil =>
    have isLast : fileNum = layout.length ∧ before ++ after = last := by
      have lengths := congrArg List.length located
      simp only [length_drop, length_append, length_cons, length_nil] at lengths
      obtain rfl : fileNum = layout.length := by omega
      exact ⟨rfl, by simpa using located.symm⟩
    obtain ⟨rfl, rfl⟩ := isLast
    exact ⟨before, after ++ [block], [], by simp, place, by simp⟩
  | append_singleton files file =>
    have inside : fileNum < layout.length := by
      have lengths := congrArg List.length located
      simp only [length_drop, length_append, length_cons, length_nil] at lengths
      omega
    rw [drop_append_of_le_length inside.le, ← cons_append] at located
    obtain ⟨front, isLast⟩ := append_inj' located rfl
    obtain rfl : last = file := by simpa using isLast
    refine ⟨before, after, files ++ [last ++ [block]], ?_, place, by simp⟩
    rw [drop_append_of_le_length inside.le, front]
    rfl

theorem Remaining.newFile (remaining : Remaining layout fileNum offset rest) : Remaining (layout ++ [[]]) fileNum offset rest := by
  obtain ⟨before, after, files, located, place, rfl⟩ := remaining
  have inside : fileNum < layout.length := by
    by_contra outside
    rw [drop_of_length_le (by omega)] at located
    simp at located
  refine ⟨before, after, files ++ [[]], ?_, place, by simp⟩
  rw [drop_append_of_le_length inside.le, located]
  rfl

end Fabric.Proof.Blkstorage

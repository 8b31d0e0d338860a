import Xv6Container.Names.Tree

/-! The changes that the calls make to the tree: a file gets a name or loses one, a directory
is made or removed, and an inode without links is freed. Each of them keeps the tree. -/

namespace Xv6Container.Names

open Lib Fs

variable {A B : Prop} {n n' : Inum → Node} {i j d u : Inum} {name y : Name} {off : ℕ}
  {es es' : List Dirent} {x z : Node}

/-- What is the same for the new node `z` of `d` is the same for all nodes but `i`. -/
theorem same_of_rest {β : Sort*} (f : Node → β) (hf : f z = f (n d)) (hdir : n' d = z)
    (hrest : ∀ j, j ≠ i → j ≠ d → n' j = n j) (hj : j ≠ i) : f (n' j) = f (n j) := by
  by_cases hjd : j = d
  · rw [hjd, hdir, hf]
  · rw [hrest j hj hjd]

/-- A file and the entries of a directory change. -/
theorem Tree.setFile (h : Tree A B n) (hd : (n d).attr.type = .dir)
    (hi : (n i).attr.type ≠ .dir) (hi0 : i ≠ 0) (hxdir : x.attr.type ≠ .dir)
    (hxfree : x.attr.type ≠ .free) (hdots : ∀ u, Dotted d u (n d).entries → Dotted d u es)
    (hmem : ∀ y j, some (y, j) ∈ es → some (y, j) ∈ (n d).entries ∨ j = i ∧ (A → (n d).Live))
    (hother : ∀ j, j ≠ i → es.countP (names j) = (n d).entries.countP (names j))
    (hle : named n i - (n d).entries.countP (names i) + es.countP (names i) ≤ x.attr.nlink)
    (heq : A → named n i - (n d).entries.countP (names i) + es.countP (names i) = x.attr.nlink) :
    Tree A B (Function.update (Function.update n i x) d ⟨(n d).attr, es⟩) := by
  have hdi : d ≠ i := by
    rintro rfl
    exact hi hd
  obtain ⟨n', hn'⟩ : ∃ n', n' = Function.update (Function.update n i x) d ⟨(n d).attr, es⟩ :=
    ⟨_, rfl⟩
  rw [← hn']
  have hself : n' i = x := by
    rw [hn', Function.update_of_ne hdi.symm, Function.update_self]
  have hdir : n' d = ⟨(n d).attr, es⟩ := by rw [hn', Function.update_self]
  have hrest : ∀ j, j ≠ i → j ≠ d → n' j = n j := fun j hji hjd => by
    rw [hn', Function.update_of_ne hjd, Function.update_of_ne hji]
  have hattr : ∀ j, j ≠ i → (n' j).attr = (n j).attr := by
    intro j hji
    by_cases hjd : j = d
    · rw [hjd, hdir]
    · rw [hrest j hji hjd]
  have htype : ∀ j, (n' j).attr.type = .dir ↔ (n j).attr.type = .dir := by
    intro j
    by_cases hji : j = i
    · rw [hji, hself]
      exact iff_of_false hxdir hi
    · rw [hattr j hji]
  have hne : ∀ j, (n j).attr.type = .dir → j ≠ i := by
    rintro j hj rfl
    exact hi hj
  have hlive : ∀ j, (n' j).Live ↔ (n j).Live := by
    intro j
    by_cases hji : j = i
    · rw [hji, hself]
      exact iff_of_false (fun hl => hxdir hl.1) fun hl => hi hl.1
    · unfold Node.Live
      rw [hattr j hji]
  have hup : ∀ j, (n j).attr.type = .dir → (n' j).up = (n j).up := by
    intro j hj
    by_cases hjd : j = d
    · obtain ⟨u, hu⟩ := h.dotted d hd
      rw [hjd, hdir, hu.up]
      exact Dotted.up (x := ⟨(n d).attr, es⟩) (hdots u hu)
    · rw [hrest j (hne j hj) hjd]
  have hkids : ∀ j, kids n' j = kids n j := fun j => Finset.sum_congr rfl fun k _ =>
    Node.kid_congr (hlive k) fun hl => hup k ((hlive k).1 hl).1
  have hnamed : ∀ j, named n' j = named n j - (n d).entries.countP (names j) +
      es.countP (names j) := by
    intro j
    rw [hn', named_update₂ hdi, Node.named_of_ne hi, Node.named_of_ne hxdir]
    simp only [Node.named, hd, if_true]
    omega
  have hnamed' : ∀ j, j ≠ i → named n' j = named n j := fun j hj => by
    rw [hnamed, hother j hj]
    omega
  constructor
  case zero =>
    rw [hattr 0 hi0.symm]
    exact h.zero
  case rootLive => exact (hlive _).2 h.rootLive
  case rootUp =>
    rw [hup _ h.rootLive.1]
    exact h.rootUp
  case dotted =>
    intro e he
    rw [htype] at he
    by_cases hed : e = d
    · obtain ⟨u, hu⟩ := h.dotted d hd
      rw [hed, hdir]
      exact ⟨u, hdots u hu⟩
    · rw [hrest e (hne e he) hed]
      exact h.dotted e he
  case below =>
    intro e y j he hy hdot hdotdot
    rw [htype] at he
    have hold : some (y, j) ∈ (n e).entries → (n' j).attr.type ≠ .free ∧
        ((n' j).attr.type = .dir → (n' e).Live ∧ (n' j).up = some e) := by
      intro hy
      obtain ⟨hfree, hsub⟩ := h.below e y j he hy hdot hdotdot
      refine ⟨?_, fun hj => ?_⟩
      · by_cases hji : j = i
        · rw [hji, hself]
          exact hxfree
        · rw [hattr j hji]
          exact hfree
      · rw [htype] at hj
        rw [hlive, hup j hj]
        exact hsub hj
    by_cases hed : e = d
    · rw [hed, hdir] at hy
      rcases hmem y j hy with hy | ⟨hji, -⟩
      · exact hold (hed ▸ hy)
      · rw [hji, hself]
        exact ⟨hxfree, fun hj => absurd hj hxdir⟩
    · rw [hrest e (hne e he) hed] at hy
      exact hold hy
  case upLive =>
    intro e u he hor hu
    rw [htype] at he
    rw [hlive] at hor
    rw [hup e he] at hu
    exact (hlive u).2 (h.upLive e u he hor hu)
  case files =>
    intro j hjdir hjfree
    by_cases hji : j = i
    · rw [hji, hself, hnamed]
      exact ⟨hle, heq⟩
    · rw [hattr j hji] at hjdir hjfree ⊢
      rw [hnamed' j hji]
      exact h.files j hjdir hjfree
  case dirs =>
    intro j hj
    rw [htype] at hj
    rw [hattr j (hne j hj), hnamed' j (hne j hj), hkids]
    exact h.dirs j hj
  case once =>
    intro j hj
    rw [htype] at hj
    rw [hattr j (hne j hj), hnamed' j (hne j hj)]
    exact h.once j hj
  case empty =>
    intro hA e y j he hl hy
    rw [htype] at he
    rw [hlive] at hl
    by_cases hed : e = d
    · rw [hed, hdir] at hy
      rw [hed] at hl
      rcases hmem y j hy with hy | ⟨-, hlive'⟩
      · exact h.empty hA d y j hd hl hy
      · exact absurd (hlive' hA) hl
    · rw [hrest e (hne e he) hed] at hy
      exact h.empty hA e y j he hl hy

/-- A directory gets an entry. -/
theorem Node.named_insertFree (hx : x.attr.type = .dir) (hz : z.attr.type = .dir)
    (hes : z.entries = insertFree x.entries (some (name, i))) (hdot : name ≠ .dot)
    (hdotdot : name ≠ .dotdot) (j : Inum) : z.named j = x.named j + if i = j then 1 else 0 := by
  have hcount := countP_names_insertFree (i := i) x.entries hdot hdotdot j
  simp only [Node.named, hx, hz, hes, if_true, hcount]
  split_ifs <;> simp

/-- An entry of a directory is cleared. -/
theorem Node.named_clear (hx : x.attr.type = .dir) (hz : z.attr.type = .dir)
    (hes : z.entries = x.entries.set off none) (hoff : x.entries[off]? = some (some (name, i)))
    (hdot : name ≠ .dot) (hdotdot : name ≠ .dotdot) (j : Inum) :
    z.named j = x.named j - if i = j then 1 else 0 := by
  have hcount := countP_names_clear hoff hdot hdotdot j
  simp only [Node.named, hx, hz, hes, if_true]
  split_ifs at hcount ⊢ <;> omega

/-- A directory gets a subdirectory. -/
theorem Tree.makeDir (h : Tree A B n) (hd : (n d).Live) (hi : (n i).attr.type = .free)
    (hi0 : i ≠ 0) (hdot : name ≠ .dot) (hdotdot : name ≠ .dotdot) (hx : x.attr.type = .dir)
    (hlink : x.attr.nlink = 1) (hxe : x.entries = [some (.dot, i), some (.dotdot, d)]) :
    Tree A B (Function.update (Function.update n i x) d
      ⟨{ (n d).attr with nlink := (n d).attr.nlink + 1 },
        insertFree (n d).entries (some (name, i))⟩) := by
  have hdi : d ≠ i := by
    rintro rfl
    exact absurd (hi.symm.trans hd.1) (by decide)
  obtain ⟨z, hz⟩ : ∃ z : Node, z = ⟨{ (n d).attr with nlink := (n d).attr.nlink + 1 },
    insertFree (n d).entries (some (name, i))⟩ := ⟨_, rfl⟩
  obtain ⟨n', hn'⟩ : ∃ n', n' = Function.update (Function.update n i x) d z := ⟨_, rfl⟩
  rw [← hz, ← hn']
  have hself : n' i = x := by
    rw [hn', Function.update_of_ne hdi.symm, Function.update_self]
  have hdir : n' d = z := by rw [hn', Function.update_self]
  have hrest : ∀ j, j ≠ i → j ≠ d → n' j = n j := fun j hji hjd => by
    rw [hn', Function.update_of_ne hjd, Function.update_of_ne hji]
  have hzlive : z.Live := by
    have hpos : 0 < (n d).attr.nlink + 1 := by
      have := hd.2
      omega
    rw [hz]
    exact ⟨hd.1, hpos⟩
  have hzup : z.up = (n d).up := by
    obtain ⟨u, hu⟩ := h.dotted d hd.1
    rw [hu.up, hz]
    exact Dotted.up (x := ⟨_, insertFree (n d).entries _⟩) (hu.insertFree hdot hdotdot)
  have hxdots : Dotted i d x.entries := ⟨[], hxe, nofun⟩
  have hxlive : x.Live := ⟨hx, hlink ▸ one_pos⟩
  have hlive : ∀ j, j ≠ i → ((n' j).Live ↔ (n j).Live) := by
    intro j hji
    have hboth : z.Live = (n d).Live := propext (iff_of_true hzlive hd)
    rw [same_of_rest Node.Live hboth hdir hrest hji]
  have htype : ∀ j, j ≠ i → (n' j).attr.type = (n j).attr.type := by
    intro j hji
    exact same_of_rest (fun x => x.attr.type) (by rw [hz]) hdir hrest hji
  have hup : ∀ j, j ≠ i → (n' j).up = (n j).up := by
    intro j hji
    exact same_of_rest Node.up hzup hdir hrest hji
  have hne : ∀ j, (n j).attr.type ≠ .free → j ≠ i := by
    rintro j hj rfl
    exact hj hi
  have hnamed : ∀ j, named n' j = named n j + if i = j then 1 else 0 := by
    intro j
    have hxn : x.named j = 0 := by simp [Node.named, hxe, names]
    have hzn : z.named j = (n d).named j + if i = j then 1 else 0 :=
      Node.named_insertFree hd.1 hzlive.1 (by rw [hz]) hdot hdotdot j
    rw [hn', named_update₂ hdi, hxn, hzn, Node.named_of_ne (x := n i) (by rw [hi]; decide)]
    omega
  have hkids : ∀ j, kids n' j = kids n j + if d = j then 1 else 0 := by
    intro j
    have hxk : x.kid j = if d = j then 1 else 0 := by
      simp only [Node.kid, hxlive, hxdots.up, true_and, Option.some.injEq]
    have hzk : z.kid j = (n d).kid j :=
      Node.kid_congr (iff_of_true hzlive hd) fun _ => hzup
    rw [hn', kids_update₂ hdi, hxk, hzk, Node.kid_of_ne (x := n i) (by rw [hi]; decide)]
    omega
  have hroot : ROOTINO ≠ i := hne _ (by rw [h.rootLive.1]; decide)
  constructor
  case zero =>
    rw [htype 0 hi0.symm]
    exact h.zero
  case rootLive => exact (hlive _ hroot).2 h.rootLive
  case rootUp => exact (hup _ hroot).trans h.rootUp
  case dotted =>
    intro e he
    by_cases hei : e = i
    · rw [hei, hself]
      exact ⟨d, hxdots⟩
    · rw [htype e hei] at he
      by_cases hed : e = d
      · obtain ⟨u, hu⟩ := h.dotted d hd.1
        rw [hed, hdir, hz]
        exact ⟨u, hu.insertFree hdot hdotdot⟩
      · rw [hrest e hei hed]
        exact h.dotted e he
  case below =>
    intro e y j he hy hydot hydotdot
    by_cases hei : e = i
    · rw [hei, hself, hxe] at hy
      rcases List.mem_cons.1 hy with hy | hy
      · cases hy
        exact absurd rfl hydot
      · cases List.mem_singleton.1 hy
        exact absurd rfl hydotdot
    · rw [htype e hei] at he
      rw [hlive e hei]
      have hold : some (y, j) ∈ (n e).entries → (n' j).attr.type ≠ .free ∧
          ((n' j).attr.type = .dir → (n e).Live ∧ (n' j).up = some e) := by
        intro hy
        obtain ⟨hfree, hsub⟩ := h.below e y j he hy hydot hydotdot
        rw [htype j (hne j hfree), hup j (hne j hfree)]
        exact ⟨hfree, hsub⟩
      by_cases hed : e = d
      · rw [hed, hdir, hz] at hy
        rcases mem_insertFree hy with hy | hy
        · exact hold (hed ▸ hy)
        · cases hy
          rw [hself, hed, hxdots.up, hx]
          exact ⟨by decide, fun _ => ⟨hd, rfl⟩⟩
      · rw [hrest e hei hed] at hy
        exact hold hy
  case upLive =>
    intro e u he hor hu
    have hlive' : ∀ u, (n u).Live → (n' u).Live := fun u hu =>
      (hlive u (hne u (by rw [hu.1]; decide))).2 hu
    by_cases hei : e = i
    · rw [hei, hself, hxdots.up] at hu
      rw [← Option.some.inj hu]
      exact hlive' d hd
    · rw [htype e hei] at he
      rw [hlive e hei] at hor
      rw [hup e hei] at hu
      exact hlive' u (h.upLive e u he hor hu)
  case files =>
    intro j hjdir hjfree
    have hji : j ≠ i := by
      rintro rfl
      rw [hself] at hjdir
      exact hjdir hx
    have hjd : j ≠ d := by
      rintro rfl
      rw [hdir] at hjdir
      exact hjdir hzlive.1
    rw [hrest j hji hjd] at hjdir hjfree ⊢
    rw [hnamed, if_neg hji.symm, add_zero]
    exact h.files j hjdir hjfree
  case dirs =>
    intro j hj
    rw [hnamed, hkids]
    by_cases hji : j = i
    · have hfree : (n i).attr.type ≠ .dir := by
        rw [hi]
        decide
      rw [hji, hself, hlink, if_pos rfl, if_neg hdi, h.named_free hi, h.kids_of_ne hfree]
      rfl
    · rw [htype j hji] at hj
      have hlinks := h.dirs j hj
      rw [if_neg (Ne.symm hji)]
      by_cases hjd : j = d
      · rw [if_pos hjd.symm, hjd, hdir, hz]
        rw [hjd] at hlinks
        change (n d).attr.nlink + 1 = _
        omega
      · rw [if_neg (Ne.symm hjd), hrest j hji hjd]
        omega
  case once =>
    intro j hj
    rw [hnamed]
    by_cases hji : j = i
    · rw [hji, hself, hlink, if_pos rfl, h.named_free hi, if_pos ⟨one_pos, hroot.symm⟩, zero_add]
    · rw [htype j hji] at hj
      rw [if_neg (Ne.symm hji), add_zero, h.once j hj]
      by_cases hjd : j = d
      · rw [hjd, hdir]
        simp only [hd.2, hzlive.2]
      · rw [hrest j hji hjd]
  case empty =>
    intro hA e y j he hl hy
    have hei : e ≠ i := by
      rintro rfl
      rw [hself] at hl
      exact hl hxlive
    have hed : e ≠ d := by
      rintro rfl
      rw [hdir] at hl
      exact hl hzlive
    rw [hrest e hei hed] at he hl hy
    exact h.empty hA e y j he hl hy

/-- An empty directory goes. Under `B` it is nobody's parent. -/
theorem Tree.removeDir (h : Tree A B n) (hd : (n d).attr.type = .dir)
    (hi : (n i).attr.type = .dir) (hoff : (n d).entries[off]? = some (some (name, i)))
    (hdot : name ≠ .dot) (hdotdot : name ≠ .dotdot)
    (hempty : ∀ y j, some (y, j) ∈ (n i).entries → y = .dot ∨ y = .dotdot)
    (hB : B → ∀ e, (n e).attr.type = .dir → (n e).up = some i → e = i) :
    Tree A B (Function.update (Function.update n d
      ⟨{ (n d).attr with nlink := (n d).attr.nlink - 1 }, (n d).entries.set off none⟩) i
      ⟨{ (n i).attr with nlink := (n i).attr.nlink - 1 }, (n i).entries⟩) := by
  have hin : some (name, i) ∈ (n d).entries := List.mem_of_getElem? hoff
  obtain ⟨hdlive, hiup⟩ := (h.below d name i hd hin hdot hdotdot).2 hi
  have hnpos : named n i ≠ 0 := (named_pos hd hin hdot hdotdot).ne'
  obtain ⟨hilive, hiroot, hnone⟩ := h.live_of_named hi hnpos
  have hlink : (n i).attr.nlink = 1 := h.one_link hi hnpos hempty
  have htwo : 2 ≤ (n d).attr.nlink := h.two_links hilive hiup hiroot
  have hkone : kids n i = 0 := by
    have := h.dirs i hi
    omega
  have hid : i ≠ d := by
    intro heq
    rw [← heq] at hin
    rcases hempty name i hin with hy | hy
    · exact hdot hy
    · exact hdotdot hy
  obtain ⟨z, hz⟩ : ∃ z : Node, z = ⟨{ (n d).attr with nlink := (n d).attr.nlink - 1 },
    (n d).entries.set off none⟩ := ⟨_, rfl⟩
  obtain ⟨x, hx⟩ : ∃ x : Node, x = ⟨{ (n i).attr with nlink := (n i).attr.nlink - 1 },
    (n i).entries⟩ := ⟨_, rfl⟩
  obtain ⟨n', hn'⟩ : ∃ n', n' = Function.update (Function.update n d z) i x := ⟨_, rfl⟩
  rw [← hz, ← hx, ← hn']
  have hself : n' i = x := by rw [hn', Function.update_self]
  have hdir : n' d = z := by
    rw [hn', Function.update_of_ne hid.symm, Function.update_self]
  have hrest : ∀ j, j ≠ i → j ≠ d → n' j = n j := fun j hji hjd => by
    rw [hn', Function.update_of_ne hji, Function.update_of_ne hjd]
  have hzlive : z.Live := by
    have hpos : 0 < (n d).attr.nlink - 1 := by omega
    rw [hz]
    exact ⟨hd, hpos⟩
  have hxzero : x.attr.nlink = 0 := by
    rw [hx]
    exact Int.sub_eq_zero.2 hlink
  have hxlive : ¬ x.Live := fun hl => absurd hl.2 (by omega)
  have hzup : z.up = (n d).up := by
    obtain ⟨u, hu⟩ := h.dotted d hd
    rw [hu.up, hz]
    exact Dotted.up (x := ⟨_, (n d).entries.set off none⟩) (hu.clear hoff hdot hdotdot)
  have hxup : x.up = (n i).up := by rw [hx, Node.up, Node.up]
  have hlive : ∀ j, j ≠ i → ((n' j).Live ↔ (n j).Live) := by
    intro j hji
    have hboth : z.Live = (n d).Live := propext (iff_of_true hzlive hdlive)
    rw [same_of_rest Node.Live hboth hdir hrest hji]
  have htype : ∀ j, (n' j).attr.type = (n j).attr.type := by
    intro j
    by_cases hji : j = i
    · rw [hji, hself, hx]
    · exact same_of_rest (fun x => x.attr.type) (by rw [hz]) hdir hrest hji
  have hup : ∀ j, (n' j).up = (n j).up := by
    intro j
    by_cases hji : j = i
    · rw [hji, hself, hxup]
    · exact same_of_rest Node.up hzup hdir hrest hji
  have hsub : ∀ e y j, some (y, j) ∈ (n' e).entries → some (y, j) ∈ (n e).entries := by
    intro e y j hy
    by_cases hei : e = i
    · rw [hei, hself, hx] at hy
      rwa [hei]
    · by_cases hed : e = d
      · rw [hed, hdir, hz] at hy
        rw [hed]
        exact mem_clear hy
      · rwa [hrest e hei hed] at hy
  have hnamed : ∀ j, named n' j = named n j - if i = j then 1 else 0 := by
    intro j
    have hxn : x.named j = (n i).named j := by rw [hx, Node.named, Node.named]
    have hzn : z.named j = (n d).named j - if i = j then 1 else 0 :=
      Node.named_clear hd hzlive.1 (by rw [hz]) hoff hdot hdotdot j
    rw [hn', named_update₂ hid, hxn, hzn]
    omega
  have hkids : ∀ j, kids n' j = kids n j - if d = j then 1 else 0 := by
    intro j
    have hik : (n i).kid j = if d = j then 1 else 0 := by
      simp only [Node.kid, hilive, hiup, true_and, Option.some.injEq]
    have hxk : x.kid j = 0 := if_neg fun hl => hxlive hl.1
    have hzk : z.kid j = (n d).kid j :=
      Node.kid_congr (iff_of_true hzlive hdlive) fun _ => hzup
    rw [hn', kids_update₂ hid, hxk, hzk, hik]
    omega
  constructor
  case zero => exact (htype 0).trans h.zero
  case rootLive => exact (hlive _ hiroot.symm).2 h.rootLive
  case rootUp => exact (hup _).trans h.rootUp
  case dotted =>
    intro e he
    rw [htype] at he
    obtain ⟨u, hu⟩ := h.dotted e he
    by_cases hei : e = i
    · rw [hei, hself, hx]
      exact ⟨u, hei ▸ hu⟩
    · by_cases hed : e = d
      · subst hed
        rw [hdir, hz]
        exact ⟨u, hu.clear hoff hdot hdotdot⟩
      · rw [hrest e hei hed]
        exact ⟨u, hu⟩
  case below =>
    intro e y j he hy hydot hydotdot
    rw [htype] at he
    have hold := h.below e y j he (hsub e y j hy) hydot hydotdot
    have hei : e ≠ i := by
      rintro rfl
      rcases hempty y j (hsub e y j hy) with hy' | hy'
      · exact hydot hy'
      · exact hydotdot hy'
    rw [htype, hup, hlive e hei]
    exact hold
  case upLive =>
    intro e u he hor hu
    rw [htype] at he
    rw [hup] at hu
    have hor' : (n e).Live ∨ B := by
      by_cases hei : e = i
      · exact Or.inl (hei ▸ hilive)
      · exact hor.imp_left (hlive e hei).1
    have hui : u ≠ i := by
      rintro rfl
      rcases hor with hor | hor
      · have heu : e ≠ u := by
          rintro rfl
          exact hxlive (hself ▸ hor)
        exact absurd hkone (kids_pos ((hlive e heu).1 hor) hu).ne'
      · have heu := hB hor e he hu
        rw [heu, hiup] at hu
        exact hid (Option.some.inj hu).symm
    exact (hlive u hui).2 (h.upLive e u he hor' hu)
  case files =>
    intro j hjdir hjfree
    have hji : i ≠ j := by
      rintro rfl
      exact hjdir ((htype i).trans hi)
    have hjd : j ≠ d := by
      rintro rfl
      exact hjdir ((htype j).trans hd)
    rw [hrest j hji.symm hjd] at hjdir hjfree ⊢
    rw [hnamed, if_neg hji, sub_zero]
    exact h.files j hjdir hjfree
  case dirs =>
    intro j hj
    rw [htype] at hj
    have hlinks := h.dirs j hj
    rw [hnamed, hkids]
    by_cases hji : j = i
    · rw [hji, hself, hxzero, if_pos rfl, if_neg hid.symm, hnone, hkone]
      rfl
    · rw [if_neg (Ne.symm hji)]
      by_cases hjd : j = d
      · rw [hjd] at hlinks
        rw [hjd, if_pos rfl, hdir, hz]
        change (n d).attr.nlink - 1 = _
        omega
      · rw [if_neg (Ne.symm hjd), hrest j hji hjd]
        omega
  case once =>
    intro j hj
    rw [htype] at hj
    rw [hnamed]
    by_cases hji : j = i
    · rw [hji, hself, hxzero, if_pos rfl, hnone]
      simp
    · rw [if_neg (Ne.symm hji), sub_zero, h.once j hj]
      by_cases hjd : j = d
      · rw [hjd, hdir]
        simp only [hdlive.2, hzlive.2]
      · rw [hrest j hji hjd]
  case empty =>
    intro hA e y j he hl hy
    rw [htype] at he
    by_cases hei : e = i
    · subst hei
      exact hempty y j (hsub e y j hy)
    · rw [hlive e hei] at hl
      exact h.empty hA e y j he hl (hsub e y j hy)

/-- An inode without links is freed. -/
theorem Tree.collect (h : Tree A B n) (hn : Collected i n n') : Tree A B n' := by
  obtain ⟨hi, hlink, hn'⟩ := hn
  have hnone : named n i = 0 := by
    have hnonneg := named_nonneg n i
    by_cases hdir : (n i).attr.type = .dir
    · have := h.dirs i hdir
      have := kids_nonneg n i
      omega
    · have := (h.files i hdir hi).1
      omega
  have hdead : ¬ (n i).Live := fun hl => absurd hl.2 (by omega)
  have hself : n' i = ⟨{ (n i).attr with type := .free }, []⟩ := by
    rw [hn', Function.update_self]
  have hrest : ∀ j, j ≠ i → n' j = n j := fun j hj => by rw [hn', Function.update_of_ne hj]
  have hne : ∀ j, (n' j).attr.type ≠ .free → j ≠ i := by
    rintro j hj rfl
    rw [hself] at hj
    exact hj rfl
  have hdirne : ∀ j, (n' j).attr.type = .dir → j ≠ i := fun j hj => hne j (by rw [hj]; decide)
  have hlivene : ∀ {u}, (n u).Live → u ≠ i := by
    rintro u hu rfl
    exact hdead hu
  have hkids : ∀ j, kids n' j = kids n j := by
    intro j
    have hik : (n i).kid j = 0 := if_neg fun hl => hdead hl.1
    rw [hn', kids_update, hik, Node.kid_of_ne (by simp)]
    omega
  have hnamed : ∀ j, named n' j = named n j - (n i).named j := by
    intro j
    rw [hn', named_update, Node.named_of_ne (x := ⟨_, []⟩) (by simp)]
    omega
  -- what a removed directory names is a file
  have hdirs : ∀ j, (n j).attr.type = .dir → (n i).named j = 0 := by
    intro j hj
    by_contra hne'
    obtain ⟨hd, y, hy, hdot, hdotdot⟩ := Node.exists_of_named hne'
    exact hdead ((h.below i y j hd hy hdot hdotdot).2 hj).1
  have hempty : A → ∀ j, (n i).named j = 0 := by
    intro hA j
    by_contra hne'
    obtain ⟨hd, y, hy, hdot, hdotdot⟩ := Node.exists_of_named hne'
    rcases h.empty hA i y j hd hdead hy with hy' | hy'
    · exact hdot hy'
    · exact hdotdot hy'
  have hroot := hlivene h.rootLive
  constructor
  case zero =>
    by_cases h0 : (0 : Inum) = i
    · rw [h0, hself]
    · rw [hrest 0 h0]
      exact h.zero
  case rootLive =>
    rw [hrest _ hroot]
    exact h.rootLive
  case rootUp =>
    rw [hrest _ hroot]
    exact h.rootUp
  case dotted =>
    intro e he
    have hei := hdirne e he
    rw [hrest e hei] at he ⊢
    exact h.dotted e he
  case below =>
    intro e y j he hy hdot hdotdot
    have hei := hdirne e he
    rw [hrest e hei] at he hy ⊢
    have hji : j ≠ i := by
      rintro rfl
      exact absurd hnone (named_pos he hy hdot hdotdot).ne'
    rw [hrest j hji]
    exact h.below e y j he hy hdot hdotdot
  case upLive =>
    intro e u he hor hu
    have hei := hdirne e he
    rw [hrest e hei] at he hor hu
    have hlive := h.upLive e u he hor hu
    rw [hrest u (hlivene hlive)]
    exact hlive
  case files =>
    intro j hjdir hjfree
    have hji := hne j hjfree
    rw [hrest j hji] at hjdir hjfree ⊢
    have hnonneg := (n i).named_nonneg j
    obtain ⟨hle, heq⟩ := h.files j hjdir hjfree
    rw [hnamed]
    refine ⟨by omega, fun hA => ?_⟩
    rw [hempty hA j, sub_zero]
    exact heq hA
  case dirs =>
    intro j hj
    have hji := hdirne j hj
    rw [hrest j hji] at hj ⊢
    rw [hnamed, hkids, hdirs j hj, sub_zero]
    exact h.dirs j hj
  case once =>
    intro j hj
    have hji := hdirne j hj
    rw [hrest j hji] at hj ⊢
    rw [hnamed, hdirs j hj, sub_zero]
    exact h.once j hj
  case empty =>
    intro hA e y j he hl hy
    have hei := hdirne e he
    rw [hrest e hei] at he hl hy
    exact h.empty hA e y j he hl hy

end Xv6Container.Names

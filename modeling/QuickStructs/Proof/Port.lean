import QuickStructs.Io.Config

/-!
# The port

A port passes three ranges: the text has none, `stoi` refuses what is not an `int`, and the
conversion to 16 bits takes anything. Negative numbers are caught before the last of them, and
numbers that are too large are not.
-/

namespace QuickStructs.Io

open TomlParser Lib.Decimal

variable {c : Config} {text : Str} {n : Int}

/-- What is left of a port in 16 bits. -/
theorem toNat_ofInt (n : Int) : ((UInt16.ofInt n).toNat : Int) = n % 65536 := by
  unfold UInt16.ofInt
  rw [UInt16.toNat_ofNat']
  omega

/-- **The port of an integer**: what does not fit in an `int` and what is negative is 0, and the
rest is cut to 16 bits. -/
theorem getMarketPort_integer (htext : c.mParser.getValue network port = some text)
    (hn : Integer text n) :
    (c.getMarketPort.toNat : Int) = if 0 ≤ n ∧ n ≤ 2147483647 then n % 65536 else 0 := by
  by_cases hfit : -2147483648 ≤ n ∧ n ≤ 2147483647
  · have hport : c.getMarketPort = if n < 0 then 0 else UInt16.ofInt n := by
      unfold Config.getMarketPort
      simp only [htext, stoi_integer hn, if_pos hfit]
    rw [hport]
    by_cases hneg : n < 0
    · rw [if_pos hneg, if_neg (by omega)]
      rfl
    · rw [if_neg hneg, if_pos (by omega), toNat_ofInt]
  · -- the conversion throws
    have hport : c.getMarketPort = 0 := by
      unfold Config.getMarketPort
      simp only [htext, stoi_integer hn, if_neg hfit]
    rw [hport, if_neg (by omega)]
    rfl

/--
**The port that is returned is the one that is written, or 0 where that is none**, exactly when the
number is not between 65536 and the largest `int`, or its lower 16 bits are zero.
-/
theorem getMarketPort_iff (c : Config) (text : Str) (n : Int)
    (htext : c.mParser.getValue network port = some text) (hn : Integer text n) :
    (c.getMarketPort.toNat : Int) = (if 0 ≤ n ∧ n ≤ 65535 then n else 0)
    ↔ n ≤ 65535 ∨ 2147483647 < n ∨ 65536 ∣ n := by
  rw [getMarketPort_integer htext hn]
  split <;> split <;> omega

/-- A section `network` with the port. -/
def fileOf (value : Str) : String → Option Str := fun _ =>
  some ('[' :: (network ++ [']', '\n'] ++ port ++ '=' :: value))

/-- `port=8080`. -/
theorem getMarketPort_iff_8080 :
    let c := ((Config.new "etc/config.toml").parseConfig (fileOf ['8', '0', '8', '0'])).2
    (c.getMarketPort.toNat : Int) = (if (0 : Int) ≤ 8080 ∧ (8080 : Int) ≤ 65535 then 8080 else 0)
    ↔ (8080 : Int) ≤ 65535 ∨ 2147483647 < (8080 : Int) ∨ (65536 : Int) ∣ 8080 :=
  getMarketPort_iff _ ['8', '0', '8', '0'] 8080 (by decide) (Integer.plain _ (by decide) rfl)

/-- `port=70000`: the configuration is loaded, and the port is 4464. -/
theorem port_invented :
    let r := (Config.new "etc/config.toml").parseConfig (fileOf ['7', '0', '0', '0', '0'])
    r.1 = true ∧ r.2.mParser.getValue network port = some ['7', '0', '0', '0', '0']
      ∧ Integer ['7', '0', '0', '0', '0'] 70000
      ∧ r.2.getMarketPort = 4464 :=
  ⟨rfl, by decide, Integer.plain _ (by decide) rfl, by decide⟩

end QuickStructs.Io

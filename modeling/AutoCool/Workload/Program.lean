/-!
# Programs of any size

A program for measuring the stages: some classes of one shape, and after them a fixed part that has
something of everything, right and wrong. The text is kept line by line, with square brackets for
braces.
-/

namespace AutoCool.Workload

def ofLines (lines : List String) : String :=
  String.ofList ((String.join (lines.map (· ++ "\n"))).toList.map fun c =>
    if c == '[' then Char.ofNat 0x7b else if c == ']' then Char.ofNat 0x7d else c)

/-- The class of a number. An attribute, a parameter, a result and a variable of it are to be
inferred. -/
def unitClass (i : Nat) : List String :=
  let k := toString i
  ["class K" ++ k ++ " inherits IO [",
    "    a" ++ k ++ " : AUTO_TYPE;",
    "    b" ++ k ++ " : Int <- 0;",
    "    go" ++ k ++ "(n : AUTO_TYPE, m : Int) : AUTO_TYPE [",
    "        [",
    "            a" ++ k ++ " <- n + m;",
    "            b" ++ k ++ " <- b" ++ k ++ " * 2 - m;",
    "            if n = m then out_string(\"eq\") else out_string(\"ne\") fi;",
    "            case m of i : Int => i; s : String => 0; esac;",
    "            let t : AUTO_TYPE <- n + 1 in t + m;",
    "            case m of i : Int => 1; o : Object => 2; esac;",
    "            out_int(n);",
    "            self.out_int(m);",
    "            n + m;",
    "        ]",
    "    ];",
    "];"]

/-- The fixed part: classes in a cycle, overriding, wrong types, wrong names, and things to be
inferred. -/
def mixedClasses : List String :=
  ["(* block *)",
    "class CycA inherits CycC [ ];",
    "class CycB inherits CycA [ ];",
    "class CycC inherits CycB [ ];",
    "class Base [",
    "    val : Int <- 0;",
    "    name : String <- \"base\";",
    "    greet(who : String) : String [ who.concat(name) ];",
    "    bump(k : Int) : Int [ val + k ];",
    "];",
    "class Derived inherits Base [",
    "    flag : Bool <- true;",
    "    other : AUTO_TYPE;",
    "    tmp : SELF_TYPE <- new Derived;",
    "    greet(who : String) : String [ who.concat(\"!\") ];",
    "    bump(k : Int) : String [ \"oops\" ];",
    "];",
    "class Weird [",
    "    a : Int <- \"hello\";",
    "    s : SELF_TYPE <- new Weird;",
    "    missing() : Object [ unknownCall(1) ];",
    "    selfy() : SELF_TYPE [ self ];",
    "    bad_assign() : Int [ [ self <- new Weird; 0; ] ];",
    "    wrong() : Int [ let z : Missing <- 1, q : SELF_TYPE <- self in z ];",
    "];",
    "class Main inherits IO [",
    "    counter : AUTO_TYPE;",
    "    io : IO <- new IO;",
    "    fact(n : AUTO_TYPE) : AUTO_TYPE [",
    "        if n < 0 then 1 else n * fact(n - 1) fi",
    "    ];",
    "    ack(m : AUTO_TYPE, n : AUTO_TYPE) : AUTO_TYPE [",
    "        if m = 0 then n + 1 else",
    "            if n = 0 then ack(m - 1, 1) else ack(m - 1, ack(m, n - 1)) fi",
    "        fi",
    "    ];",
    "    compute(a : Int, b : Int) : Int [",
    "        [",
    "            let x : AUTO_TYPE <- a + b, y : Int <- a - b, z : AUTO_TYPE in",
    "                [ x <- x * y / 2; z <- ~ x; x + z; ];",
    "            while a <= b loop [ a <- a + 1; counter <- a; ] pool;",
    "            case io of",
    "                i : IO => 1;",
    "                s : String => 2;",
    "                u : Missing => 3;",
    "                v : AUTO_TYPE => 4;",
    "            esac;",
    "            not isvoid io;",
    "            (new Derived)@Base.greet(\"hi\");",
    "            (new Derived)@Missing.greet(\"hi\");",
    "            (new Derived)@AUTO_TYPE.greet(\"hi\");",
    "            io.out_string(\"done\").out_int(42);",
    "            io@IO.out_int(1);",
    "            \"abc\".substr(0, 1);",
    "            if a = b then \"eq\" else 0 fi;",
    "            1 = \"x\";",
    "            true = 1;",
    "            a < \"x\";",
    "            a <= \"x\";",
    "            b <= \"x\";",
    "            a + \"x\";",
    "            ~ \"x\";",
    "            not 1;",
    "            new Missing;",
    "            undefinedVar;",
    "            (new Derived).nosuch(1, 2);",
    "            io.out_int(1, 2);",
    "            self.copy();",
    "            a + b;",
    "        ]",
    "    ];",
    "    main() : SELF_TYPE [",
    "        let p : AUTO_TYPE <- fact(5), q : Int in [",
    "            case p of i : Int => 1; esac;",
    "            self.copy();",
    "            self.copy();",
    "            self;",
    "        ]",
    "    ];",
    "];"]

def program (n : Nat) : String := ofLines ((List.range n).flatMap unitClass ++ mixedClasses)

end AutoCool.Workload

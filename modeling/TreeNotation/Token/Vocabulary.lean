/-!
# The Vocabulary

The names that stand in for replaced texts, in the order in which they are handed out: short given
names, no two of them alike.
-/

namespace TreeNotation.Token

/-- The names that stand in for replaced texts, first name first. -/
def vocabulary : List String :=
  ["James", "Mary", "John", "Patricia", "Robert", "Jennifer", "Michael", "Linda", "William",
    "Elizabeth", "David", "Barbara", "Richard", "Susan", "Joseph", "Jessica", "Thomas", "Sarah",
    "Charles", "Karen", "Daniel", "Nancy", "Matthew", "Lisa", "Anthony", "Betty", "Mark",
    "Margaret", "Donald", "Sandra", "Steven", "Ashley", "Paul", "Kimberly", "Andrew", "Emily",
    "Joshua", "Donna", "Kenneth", "Michelle", "Kevin", "Dorothy", "Brian", "Carol", "George",
    "Amanda", "Edward", "Melissa", "Ronald", "Deborah", "Timothy", "Stephanie", "Jason",
    "Rebecca", "Jeffrey", "Sharon", "Ryan", "Laura", "Jacob", "Cynthia", "Gary", "Kathleen",
    "Nicholas", "Amy", "Eric", "Shirley", "Jonathan", "Angela", "Stephen", "Helen", "Larry",
    "Anna", "Justin", "Brenda", "Scott", "Pamela", "Brandon", "Nicole", "Benjamin", "Emma",
    "Samuel", "Samantha", "Gregory", "Katherine", "Frank", "Christine", "Alexander", "Debra",
    "Raymond", "Rachel", "Patrick", "Catherine", "Jack", "Carolyn", "Dennis", "Janet", "Jerry",
    "Ruth", "Tyler", "Maria", "Aaron", "Heather", "Jose", "Diane", "Adam", "Virginia", "Henry",
    "Julie", "Nathan", "Joyce", "Douglas", "Victoria", "Zachary", "Olivia", "Peter", "Kelly",
    "Kyle", "Christina", "Walter", "Lauren", "Ethan", "Joan", "Jeremy", "Evelyn", "Harold",
    "Judith", "Keith", "Megan", "Christian", "Cheryl", "Roger", "Andrea", "Noah", "Hannah",
    "Gerald", "Martha", "Carl", "Jacqueline", "Terry", "Frances", "Sean", "Gloria", "Austin",
    "Ann", "Arthur", "Teresa", "Lawrence", "Kathryn", "Jesse", "Sara", "Dylan", "Janice",
    "Bryan", "Jean", "Joe", "Alice", "Jordan", "Madison", "Billy", "Doris", "Bruce", "Abigail",
    "Albert", "Julia", "Willie", "Judy", "Gabriel", "Grace", "Logan", "Denise", "Alan", "Amber",
    "Juan", "Marilyn", "Wayne", "Beverly", "Roy", "Danielle", "Ralph", "Theresa", "Randy",
    "Sophia", "Eugene", "Marie", "Vincent", "Diana", "Russell", "Brittany", "Elijah", "Natalie",
    "Louis", "Isabella", "Bobby", "Charlotte", "Philip", "Rose", "Johnny", "Alexis", "Bradley",
    "Kayla", "Leo", "Ivy", "Max", "Ben", "Sam", "Tom", "Tim", "Dan", "Ken", "Ron", "Ray", "Lee",
    "Kim", "Eve", "Zoe", "Mia", "Ava", "Ella", "Lily", "Chloe", "Lucy", "Ruby", "Alex", "Owen",
    "Luke", "Liam", "Mason", "Lucas", "Oliver", "Aiden", "Caleb", "Isaac", "Hunter", "Connor",
    "Eli", "Ian", "Evan", "Gavin", "Colin", "Chase", "Cole", "Blake", "Miles", "Wyatt",
    "Carter", "Jayden", "Levi", "Julian", "Adrian", "Hudson", "Xavier", "Dominic", "Jaxon",
    "Nolan", "Asher", "Easton", "Parker", "Brooks", "Bennett", "Everett", "Rowan", "Silas",
    "Jasper", "Felix", "Oscar", "Hugo", "Arlo", "Finn", "Theo", "Ezra", "Jude", "Axel",
    "Emmett", "Milo", "Leon", "Otto", "Rex", "Sage", "Quinn", "Reid", "Troy", "Dean", "Glenn",
    "Grant", "Lance", "Neil", "Nick", "Rick", "Todd", "Wade", "Clark", "Brett", "Drew", "Kurt",
    "Dale", "Earl", "Fred", "Hank", "Jake", "Joel", "Kirk", "Mike", "Ned", "Ross", "Seth",
    "Ted", "Vic", "Will", "Zack", "Abby", "Beth", "Cara", "Dana", "Fay", "Gail", "Hope", "Iris",
    "Jade", "Jill", "June", "Kate", "Lana", "Lena", "Lila", "Luna", "Mae", "Maya", "Nina",
    "Nora", "Opal", "Piper", "Rita", "Rosa", "Sadie", "Tara", "Tess", "Vera", "Wren", "Yara",
    "Zara", "Ada", "Bea", "Cleo", "Dora", "Edna", "Elsa", "Gwen", "Ida", "Inez", "Joy", "Kay",
    "Leah", "Mira", "Nell", "Paige", "Reese", "Skye", "Stella", "Tina", "Una", "Vivian",
    "Willa", "Alma", "Aurora", "Bella", "Brooke", "Claire", "Daisy", "Eden", "Faith", "Hazel",
    "Holly", "Jenna", "Kylie", "Layla", "Mila", "Naomi", "Paisley", "Riley", "Savannah",
    "Scarlett", "Violet", "Willow", "Autumn", "Brianna", "Camila", "Delilah", "Eliana",
    "Genesis", "Gianna", "Harper", "Josephine", "Kennedy", "Leilani", "Lydia", "Madelyn",
    "Natalia", "Peyton", "Serenity", "Sophie", "Sydney", "Valentina", "Adeline", "Alina",
    "Amelia", "Aria", "Athena", "Ayla", "Callie", "Elena", "Eliza", "Emery", "Esther", "Freya",
    "Georgia", "Isla", "Jolene", "Juliet", "Kinsley", "Lola", "Mabel", "Margot", "Millie",
    "Molly", "Nadia", "Nova", "Phoebe", "Raelynn", "Remi", "Sienna", "Talia", "Thea", "Vienna",
    "Xena", "Yvonne", "Zelda", "Angus", "Barney", "Boris", "Cedric", "Clyde", "Conrad", "Cyril",
    "Dexter", "Edgar", "Elmer", "Ernest", "Floyd", "Homer", "Hector", "Horace", "Ivan",
    "Jerome", "Lionel", "Louie", "Marvin", "Morris", "Murray", "Nelson", "Norman", "Percy",
    "Quentin", "Rupert", "Sidney", "Stanley", "Sylvester", "Vernon", "Victor", "Wallace",
    "Warren", "Wilbur", "Winston", "Abel", "Amos", "Boyd", "Bruno", "Chad", "Cliff", "Curt",
    "Duke", "Ellis", "Flynn", "Gus", "Hal", "Irving", "Jay", "Kent", "Lars", "Mack", "Nash",
    "Neal", "Otis", "Pete", "Rocco", "Rudy", "Saul", "Shane", "Stu", "Vance", "Ward", "Yuri",
    "Zane"]

end TreeNotation.Token
